import Mathlib.Data.List.Chain
import SolidityCompass.Editor.Snippet
import SolidityCompass.Text.CharClass

/-!
# How an editor reads a snippet

An editor reads a snippet from left to right. A dollar sign begins a slot, if a brace, a number and
a colon follow, a stop, if a number follows, and a reference to a variable, if a name follows. A
closing brace ends the slot that was opened last, and a backslash takes the meaning from a dollar
sign, a closing brace or a backslash behind it. All other characters stand for themselves. So a text
without braces and backslashes stands for itself unless a dollar sign in it comes before a letter, a
digit or an underscore, and a call can be read slot by slot.
-/

namespace SolidityCompass

inductive SnippetMark where
  | char (c : Char)
  | opens (number : Nat)
  | closes
  | stop (number : Nat)
  | value (name : String)
deriving Repr, DecidableEq

namespace SnippetMark

def isNameStart (c : Char) : Bool :=
  c.isAlpha || c = '_'

def isNameChar (c : Char) : Bool :=
  isNameStart c || c.isDigit

def slotNumber? (cs : List Char) : Option (Nat × List Char) :=
  match cs.takeWhile Char.isDigit, cs.dropWhile Char.isDigit with
  | digit :: digits, ':' :: rest => some (Nat.ofDigitChars 10 (digit :: digits) 0, rest)
  | _, _ => none

def afterDollar (cs : List Char) : SnippetMark × List Char :=
  match cs with
  | [] => (.char '$', [])
  | c :: ds =>
    if c.isDigit then
      (.stop (Nat.ofDigitChars 10 (cs.takeWhile Char.isDigit) 0), cs.dropWhile Char.isDigit)
    else if isNameStart c then
      (.value (String.ofList (cs.takeWhile isNameChar)), cs.dropWhile isNameChar)
    else if c = '\x7b' then
      match slotNumber? ds with
      | some (number, rest) => (.opens number, rest)
      | none => (.char '$', cs)
    else (.char '$', cs)

def afterBackslash (cs : List Char) : SnippetMark × List Char :=
  match cs with
  | [] => (.char '\\', [])
  | c :: ds =>
    if c = '$' || c = '\x7d' || c = '\\' then (.char c, ds) else (.char '\\', cs)

/-- The first mark of a snippet, read with `depth` slots open, and what is left of the snippet. -/
def first (depth : Nat) (c : Char) (cs : List Char) : SnippetMark × List Char :=
  if c = '$' then afterDollar cs
  else if c = '\\' then afterBackslash cs
  else if c = '\x7d' && 0 < depth then (.closes, cs)
  else (.char c, cs)

def depthAfter (depth : Nat) : SnippetMark → Nat
  | opens _ => depth + 1
  | closes => depth - 1
  | _ => depth

theorem suffix_of_slotNumber? {number : Nat} {cs rest : List Char}
    (h : slotNumber? cs = some (number, rest)) : rest <:+ cs := by
  unfold slotNumber? at h
  split at h
  next hrest =>
    obtain ⟨-, rfl⟩ := Prod.mk.inj (Option.some.inj h)
    exact (List.suffix_cons ':' _).trans (hrest ▸ List.dropWhile_suffix _)
  next => cases h

theorem suffix_afterDollar (cs : List Char) : (afterDollar cs).2 <:+ cs := by
  unfold afterDollar
  split
  next => exact List.suffix_refl []
  next c ds =>
    split
    next => exact List.dropWhile_suffix _
    next =>
      split
      next => exact List.dropWhile_suffix _
      next =>
        split
        next =>
          split
          next hnumber => exact (suffix_of_slotNumber? hnumber).trans (List.suffix_cons c ds)
          next => exact List.suffix_refl _
        next => exact List.suffix_refl _

theorem suffix_afterBackslash (cs : List Char) : (afterBackslash cs).2 <:+ cs := by
  unfold afterBackslash
  split
  next => exact List.suffix_refl []
  next c ds =>
    split
    · exact List.suffix_cons c ds
    · exact List.suffix_refl _

theorem suffix_first (depth : Nat) (c : Char) (cs : List Char) : (first depth c cs).2 <:+ cs := by
  unfold first
  split
  · exact suffix_afterDollar cs
  · split
    · exact suffix_afterBackslash cs
    · split <;> exact List.suffix_refl cs

end SnippetMark

open SnippetMark

def snippetMarks (depth : Nat) : List Char → List SnippetMark
  | [] => []
  | c :: cs =>
    let m := first depth c cs
    m.1 :: snippetMarks (m.1.depthAfter depth) m.2
termination_by cs => cs.length
decreasing_by exact Nat.lt_succ_of_le (suffix_first depth c cs).length_le

namespace SnippetMark

def slot? : SnippetMark → Option Nat
  | opens number => some number
  | _ => none

def name? : SnippetMark → Option String
  | value name => some name
  | _ => none

def literal? : SnippetMark → Option Char
  | char c => some c
  | _ => none

def slots (marks : List SnippetMark) : List Nat :=
  marks.filterMap slot?

def names (marks : List SnippetMark) : List String :=
  marks.filterMap name?

def literals (marks : List SnippetMark) : List Char :=
  marks.filterMap literal?

/-- What is inserted while all slots hold their defaults, if the editor knows the variables by
`valueOf`. -/
def expansion (valueOf : String → String) (marks : List SnippetMark) : List Char :=
  marks.flatMap fun
    | char c => [c]
    | value name => (valueOf name).toList
    | _ => []

section append

variable (a b : List SnippetMark)

@[simp] theorem slots_append : slots (a ++ b) = slots a ++ slots b :=
  List.filterMap_append

@[simp] theorem names_append : names (a ++ b) = names a ++ names b :=
  List.filterMap_append

@[simp] theorem literals_append : literals (a ++ b) = literals a ++ literals b :=
  List.filterMap_append

end append

theorem expansion_of_names {valueOf : String → String} {marks : List SnippetMark}
    (h : names marks = []) : expansion valueOf marks = literals marks := by
  induction marks with
  | nil => rfl
  | cons m marks ih =>
    cases m with
    | value name => cases h
    | char c => exact congrArg (c :: ·) (ih h)
    | _ => exact ih h

/-! ## Texts without braces and backslashes -/

def isBare (c : Char) : Bool :=
  c != '\x7b' && c != '\x7d' && c != '\\'

/-- What stands behind a text does not go on with a reference at its end. -/
def EndsReference (s : List Char) : Prop :=
  ∀ c ∈ s.head?, isNameChar c = false ∧ c ≠ '\x7b'

/-- No dollar sign comes before a letter, a digit or an underscore. -/
def IsInert (v : List Char) : Prop :=
  v.IsChain fun a b => a = '$' → isNameChar b = false

instance (v : List Char) : Decidable (IsInert v) :=
  inferInstanceAs (Decidable (v.IsChain _))

variable {depth : Nat} {c : Char} {cs v s : List Char}

theorem isBare_iff : isBare c = true ↔ c ≠ '\x7b' ∧ c ≠ '\x7d' ∧ c ≠ '\\' := by
  simp [isBare, and_assoc]

theorem EndsReference.takeWhile_append (h : EndsReference s) {p : Char → Bool}
    (hp : ∀ c, p c = true → isNameChar c = true) (v : List Char) :
    (v ++ s).takeWhile p = v.takeWhile p := by
  induction v with
  | nil =>
    cases s with
    | nil => rfl
    | cons c s =>
      have hc : ¬p c = true := fun hpc => by simpa [hp c hpc] using (h c rfl).1
      simp [hc]
  | cons c v ih => simp [List.takeWhile_cons, ih]

theorem EndsReference.dropWhile_append (h : EndsReference s) {p : Char → Bool}
    (hp : ∀ c, p c = true → isNameChar c = true) (v : List Char) :
    (v ++ s).dropWhile p = v.dropWhile p ++ s := by
  have htake := h.takeWhile_append hp v
  have hboth : (v ++ s).takeWhile p ++ (v ++ s).dropWhile p = v ++ s :=
    List.takeWhile_append_dropWhile
  rw [htake] at hboth
  have hcancel : v.takeWhile p ++ (v ++ s).dropWhile p = v.takeWhile p ++ (v.dropWhile p ++ s) := by
    rw [hboth, ← List.append_assoc, List.takeWhile_append_dropWhile]
  exact List.append_cancel_left hcancel

/-- In front of a character that is part of no name a dollar sign stands for itself. -/
theorem afterDollar_of_inert (h : EndsReference cs) : afterDollar cs = (.char '$', cs) := by
  cases cs with
  | nil => rfl
  | cons c cs =>
    obtain ⟨hname, hbrace⟩ := h c rfl
    simp only [isNameChar, Bool.or_eq_false_iff] at hname
    simp [afterDollar, hname.1, hname.2, hbrace]

/-- In front of a name or a number it refers to something. -/
theorem afterDollar_of_name (h : isNameChar c = true) :
    (∃ number, (afterDollar (c :: cs)).1 = .stop number) ∨
      ∃ name, (afterDollar (c :: cs)).1 = .value name := by
  unfold afterDollar
  dsimp only
  split
  next => exact .inl ⟨_, rfl⟩
  next hdigit =>
    split
    next => exact .inr ⟨_, rfl⟩
    next hstart => simp [isNameChar, hdigit, hstart] at h

theorem afterDollar_append (hcs : ∀ c ∈ cs, isBare c = true) (hs : EndsReference s) :
    afterDollar (cs ++ s) = ((afterDollar cs).1, (afterDollar cs).2 ++ s) := by
  have hdigit (c : Char) (hc : c.isDigit = true) : isNameChar c = true := by simp [isNameChar, hc]
  cases cs with
  | nil => exact afterDollar_of_inert hs
  | cons c cs =>
    have hbrace := (isBare_iff.mp (hcs c (by simp))).1
    have htake := hs.takeWhile_append (p := isNameChar) (fun c h => h) (c :: cs)
    have hdrop := hs.dropWhile_append (p := isNameChar) (fun c h => h) (c :: cs)
    have htake' := hs.takeWhile_append hdigit (c :: cs)
    have hdrop' := hs.dropWhile_append hdigit (c :: cs)
    unfold afterDollar
    rw [List.cons_append] at htake hdrop htake' hdrop' ⊢
    dsimp only
    rw [htake, hdrop, htake', hdrop', if_neg hbrace, if_neg hbrace]
    split
    next => rfl
    next => split <;> rfl

theorem first_of_bare (hc : isBare c = true) :
    first depth c cs = if c = '$' then afterDollar cs else (.char c, cs) := by
  obtain ⟨-, hclose, hslash⟩ := isBare_iff.mp hc
  simp [first, hclose, hslash]

theorem endsReference_iff (hcs : ∀ c ∈ cs, isBare c = true) :
    EndsReference cs ↔ ∀ c ∈ cs.head?, isNameChar c = false := by
  refine ⟨fun h c hc => (h c hc).1, fun h c hc => ⟨h c hc, ?_⟩⟩
  exact (isBare_iff.mp (hcs c (List.mem_of_mem_head? hc))).1

theorem isInert_cons (hcs : ∀ c ∈ cs, isBare c = true) :
    IsInert (c :: cs) ↔ (c = '$' → EndsReference cs) ∧ IsInert cs := by
  rw [endsReference_iff hcs]
  cases cs with
  | nil => simp [IsInert]
  | cons d cs => simp [IsInert, List.isChain_cons_cons]

/-- The first mark of a bare text is its first character or, at a dollar sign, a reference. -/
theorem first_cases (h : ∀ d ∈ c :: cs, isBare d = true) :
    (first depth c cs = (.char c, cs) ∧ (c = '$' → EndsReference cs)) ∨
      (c = '$' ∧ ¬EndsReference cs) ∧ ((∃ number, (first depth c cs).1 = .stop number) ∨
        ∃ name, (first depth c cs).1 = .value name) := by
  obtain ⟨hc, hcs⟩ := List.forall_mem_cons.mp h
  rw [first_of_bare hc]
  split
  next hdollar =>
    by_cases hends : EndsReference cs
    · exact .inl ⟨by rw [afterDollar_of_inert hends, hdollar], fun _ => hends⟩
    · refine .inr ⟨⟨hdollar, hends⟩, ?_⟩
      rw [endsReference_iff hcs] at hends
      cases cs with
      | nil => simp at hends
      | cons d cs => exact afterDollar_of_name (by simpa using hends)
  next hdollar => exact .inl ⟨rfl, fun h => absurd h hdollar⟩

theorem first_append (h : ∀ d ∈ c :: cs, isBare d = true) (hs : EndsReference s) :
    first depth c (cs ++ s) = ((first depth c cs).1, (first depth c cs).2 ++ s) := by
  obtain ⟨hc, hcs⟩ := List.forall_mem_cons.mp h
  rw [first_of_bare hc, first_of_bare hc]
  split
  · exact afterDollar_append hcs hs
  · rfl

theorem depthAfter_first (h : ∀ d ∈ c :: cs, isBare d = true) :
    (first depth c cs).1.depthAfter depth = depth := by
  rcases first_cases h with ⟨hfirst, -⟩ | ⟨-, ⟨n, hfirst⟩ | ⟨name, hfirst⟩⟩ <;>
    rw [hfirst] <;> rfl

theorem snippetMarks_cons (h : ∀ d ∈ c :: cs, isBare d = true) :
    snippetMarks depth (c :: cs) =
      (first depth c cs).1 :: snippetMarks depth (first depth c cs).2 := by
  rw [snippetMarks, depthAfter_first h]

theorem snippetMarks_char (hc : isBare c = true) (hdollar : c ≠ '$') (cs : List Char) :
    snippetMarks depth (c :: cs) = .char c :: snippetMarks depth cs := by
  have hfirst : first depth c cs = (.char c, cs) := by rw [first_of_bare hc, if_neg hdollar]
  rw [snippetMarks, hfirst]
  rfl

theorem isBare_rest (h : ∀ d ∈ c :: cs, isBare d = true) :
    ∀ d ∈ (first depth c cs).2, isBare d = true :=
  fun d hd => h d (List.mem_cons_of_mem c ((suffix_first depth c cs).mem hd))

/-- A bare text is read by itself, whatever slots it stands in. -/
theorem snippetMarks_append (hv : ∀ c ∈ v, isBare c = true) (hs : EndsReference s) :
    snippetMarks depth (v ++ s) = snippetMarks depth v ++ snippetMarks depth s := by
  induction hn : v.length using Nat.strong_induction_on generalizing v with
  | _ n ih =>
    subst hn
    cases v with
    | nil => simp [snippetMarks]
    | cons c cs =>
      have hlt := Nat.lt_succ_of_le (suffix_first depth c cs).length_le
      have hrest := ih _ hlt (isBare_rest hv) rfl
      rw [snippetMarks_cons hv, List.cons_append, snippetMarks, first_append hv hs,
        depthAfter_first hv, hrest, List.cons_append]

theorem slots_of_bare (hv : ∀ c ∈ v, isBare c = true) : slots (snippetMarks depth v) = [] := by
  induction hn : v.length using Nat.strong_induction_on generalizing v with
  | _ n ih =>
    subst hn
    cases v with
    | nil => simp [snippetMarks, slots]
    | cons c cs =>
      have hlt := Nat.lt_succ_of_le (suffix_first depth c cs).length_le
      have hrest := ih _ hlt (isBare_rest hv) rfl
      have hnone : (first depth c cs).1.slot? = none := by
        rcases first_cases hv with ⟨hfirst, -⟩ | ⟨-, ⟨number, hfirst⟩ | ⟨name, hfirst⟩⟩ <;>
          rw [hfirst] <;> rfl
      rw [snippetMarks_cons hv, slots, List.filterMap_cons_none hnone]
      exact hrest

/-- Nothing is added to a bare text when it is read. -/
theorem literals_sublist (hv : ∀ c ∈ v, isBare c = true) :
    (literals (snippetMarks depth v)).Sublist v := by
  induction hn : v.length using Nat.strong_induction_on generalizing v with
  | _ n ih =>
    subst hn
    cases v with
    | nil => simp [snippetMarks, literals]
    | cons c cs =>
      have hsuffix := suffix_first depth c cs
      have hrest := ih _ (Nat.lt_succ_of_le hsuffix.length_le) (isBare_rest hv) rfl
      have hskip := (hrest.trans hsuffix.sublist).cons c
      rw [snippetMarks_cons hv]
      rcases first_cases hv with ⟨hfirst, -⟩ | ⟨-, ⟨number, hfirst⟩ | ⟨name, hfirst⟩⟩
      · rw [hfirst] at hrest ⊢
        exact hrest.cons_cons c
      · rwa [hfirst]
      · rwa [hfirst]

def Shows (marks : List SnippetMark) (v : List Char) : Prop :=
  names marks = [] ∧ literals marks = v

theorem shows_cons_char {marks : List SnippetMark} :
    Shows (.char c :: marks) (c :: v) ↔ Shows marks v := by
  have hnames : names (.char c :: marks) = names marks := rfl
  have hliterals : literals (.char c :: marks) = c :: literals marks := rfl
  rw [Shows, Shows, hnames, hliterals, List.cons_inj_right]

/-- A bare text stands for itself if and only if it is inert. -/
theorem shows_iff_isInert (hv : ∀ c ∈ v, isBare c = true) :
    Shows (snippetMarks depth v) v ↔ IsInert v := by
  induction v with
  | nil => simp [snippetMarks, Shows, names, literals, IsInert]
  | cons c cs ih =>
    have hcs : ∀ d ∈ cs, isBare d = true := fun d hd => hv d (by simp [hd])
    rw [snippetMarks_cons hv, isInert_cons hcs]
    rcases first_cases hv with ⟨hfirst, hends⟩ | ⟨⟨hc, hends⟩, ⟨number, hfirst⟩ | ⟨name, hfirst⟩⟩
    · rw [hfirst, shows_cons_char, ih hcs]
      exact (and_iff_right hends).symm
    · refine iff_of_false (fun h => ?_) fun h => hends (h.1 hc)
      have hsuffix := suffix_first depth c cs
      have hrest : (literals (snippetMarks depth (first depth c cs).2)).Sublist cs :=
        (literals_sublist (isBare_rest hv)).trans hsuffix.sublist
      rw [hfirst] at h
      have hall : (literals (snippetMarks depth (first depth c cs).2)).length = (c :: cs).length :=
        congrArg List.length h.2
      have hle := hrest.length_le
      rw [List.length_cons] at hall
      omega
    · refine iff_of_false (fun h => ?_) fun h => hends (h.1 hc)
      rw [hfirst] at h
      cases h.1

theorem shows_append {a b : List SnippetMark} (ha : (literals a).Sublist v)
    (hb : (literals b).Sublist s) : Shows (a ++ b) (v ++ s) ↔ Shows a v ∧ Shows b s := by
  simp only [Shows, names_append, literals_append, List.append_eq_nil_iff]
  constructor
  · rintro ⟨⟨hna, hnb⟩, htext⟩
    have hlength := congrArg List.length htext
    simp only [List.length_append] at hlength
    have := ha.length_le
    have := hb.length_le
    obtain ⟨hta, htb⟩ := List.append_inj htext (by omega)
    exact ⟨⟨hna, hta⟩, hnb, htb⟩
  · rintro ⟨⟨hna, hta⟩, hnb, htb⟩
    exact ⟨⟨hna, hnb⟩, by rw [hta, htb]⟩

/-! ## Calls -/

theorem slotNumber?_digits (number : Nat) (s : List Char) :
    slotNumber? (Nat.toDigits 10 number ++ ':' :: s) = some (number, s) := by
  have hdigits : ∀ c ∈ Nat.toDigits 10 number, c.isDigit = true := fun c hc =>
    Nat.isDigit_of_mem_toDigits (by decide) (by decide) hc
  have hvalue : Nat.ofDigitChars 10 (Nat.toDigits 10 number) 0 = number :=
    Nat.ofDigitChars_ten_toDigits
  unfold slotNumber?
  rw [List.takeWhile_append_of_pos hdigits, List.dropWhile_append_of_pos hdigits,
    List.takeWhile_cons_of_neg (by decide), List.dropWhile_cons_of_neg (by decide), List.append_nil]
  obtain ⟨digit, digits, hnumber⟩ :=
    List.exists_cons_of_ne_nil (Nat.toDigits_ne_nil (b := 10) (n := number))
  rw [hnumber] at hvalue ⊢
  exact congrArg (fun n => some (n, s)) hvalue

theorem snippetMarks_open (number : Nat) (s : List Char) :
    snippetMarks depth ('$' :: '\x7b' :: (Nat.toDigits 10 number ++ ':' :: s)) =
      .opens number :: snippetMarks (depth + 1) s := by
  have hdollar : afterDollar ('\x7b' :: (Nat.toDigits 10 number ++ ':' :: s)) =
      (.opens number, s) := by
    unfold afterDollar
    dsimp only
    rw [if_neg (by decide), if_neg (by decide), if_pos rfl, slotNumber?_digits]
  have hfirst : first depth '$' ('\x7b' :: (Nat.toDigits 10 number ++ ':' :: s)) =
      (.opens number, s) := (if_pos rfl).trans hdollar
  rw [snippetMarks, hfirst]
  rfl

theorem snippetMarks_close (s : List Char) :
    snippetMarks (depth + 1) ('\x7d' :: s) = .closes :: snippetMarks depth s := by
  have hfirst : first (depth + 1) '\x7d' s = (.closes, s) := by simp [first]
  rw [snippetMarks, hfirst]
  rfl

def slotMarks (number : Nat) (default : String) : List SnippetMark :=
  .opens number :: (snippetMarks 1 default.toList ++ [.closes])

def slotsMarks : (first : Nat) → List String → List SnippetMark
  | _, [] => []
  | first, [last] => slotMarks first last
  | first, default :: rest =>
    slotMarks first default ++ ([.char ',', .char ' '] ++ slotsMarks (first + 1) rest)

def IsBare (text : String) : Prop :=
  ∀ c ∈ text.toList, isBare c = true

theorem snippetMarks_slot {default : String} (h : IsBare default) (number : Nat) (s : List Char) :
    snippetMarks 0 ((SnippetPart.slot number default).render.toList ++ s) =
      slotMarks number default ++ snippetMarks 0 s := by
  have hends : EndsReference ('\x7d' :: s) := by simp [EndsReference, isNameChar, isNameStart]
  have htext : (SnippetPart.slot number default).render.toList ++ s =
      '$' :: '\x7b' :: (Nat.toDigits 10 number ++ ':' :: (default.toList ++ '\x7d' :: s)) := by
    simp [SnippetPart.render]
  rw [htext, snippetMarks_open, snippetMarks_append h hends, snippetMarks_close]
  simp [slotMarks]

theorem snippetMarks_slotsFrom {defaults : List String} (h : ∀ d ∈ defaults, IsBare d)
    (first : Nat) (s : List Char) :
    snippetMarks 0 ((Snippet.render ⟨Snippet.slotsFrom first defaults⟩).toList ++ s) =
      slotsMarks first defaults ++ snippetMarks 0 s := by
  induction first, defaults using Snippet.slotsFrom.induct with
  | case1 first => simp [Snippet.slotsFrom, Snippet.render, slotsMarks]
  | case2 first last =>
    rw [slotsMarks, ← snippetMarks_slot (h last (by simp))]
    simp [Snippet.slotsFrom, Snippet.render]
  | case3 first default rest hrest ih =>
    obtain ⟨hdefault, hrest⟩ := List.forall_mem_cons.mp h
    have htext : (Snippet.render ⟨Snippet.slotsFrom first (default :: rest)⟩).toList ++ s =
        (SnippetPart.slot first default).render.toList ++ (',' :: ' ' ::
          ((Snippet.render ⟨Snippet.slotsFrom (first + 1) rest⟩).toList ++ s)) := by
      simp [Snippet.slotsFrom, Snippet.render, SnippetPart.render]
    rw [htext, snippetMarks_slot hdefault, snippetMarks_char rfl (by decide),
      snippetMarks_char rfl (by decide), ih hrest, slotsMarks]
    · simp
    · assumption

section slot

variable (number : Nat) (default : String)

theorem slots_slotMarks (h : IsBare default) : slots (slotMarks number default) = [number] := by
  have hslots : slots (slotMarks number default) =
      number :: slots (snippetMarks 1 default.toList ++ [.closes]) := rfl
  rw [hslots, slots_append, slots_of_bare h]
  rfl

theorem literals_slotMarks :
    literals (slotMarks number default) = literals (snippetMarks 1 default.toList) := by
  have hliterals : literals (slotMarks number default) =
      literals (snippetMarks 1 default.toList ++ [.closes]) := rfl
  rw [hliterals, literals_append]
  exact List.append_nil _

theorem names_slotMarks :
    names (slotMarks number default) = names (snippetMarks 1 default.toList) := by
  have hnames : names (slotMarks number default) =
      names (snippetMarks 1 default.toList ++ [.closes]) := rfl
  rw [hnames, names_append]
  exact List.append_nil _

/-- A slot stands for its default. -/
theorem shows_slotMarks (h : IsBare default) :
    Shows (slotMarks number default) default.toList ↔ IsInert default.toList := by
  rw [Shows, names_slotMarks, literals_slotMarks]
  exact shows_iff_isInert h

end slot

section slots

variable {default : String} {defaults rest : List String}

theorem slotsMarks_cons (hrest : rest ≠ []) (first : Nat) :
    slotsMarks first (default :: rest) =
      slotMarks first default ++ ([.char ',', .char ' '] ++ slotsMarks (first + 1) rest) := by
  obtain ⟨next, rest, rfl⟩ := List.exists_cons_of_ne_nil hrest
  rfl

theorem toList_intercalate_cons (hrest : rest ≠ []) :
    (", ".intercalate (default :: rest)).toList =
      default.toList ++ ([',', ' '] ++ (", ".intercalate rest).toList) := by
  obtain ⟨next, rest, rfl⟩ := List.exists_cons_of_ne_nil hrest
  rw [String.intercalate_cons_cons, String.toList_append, String.toList_append, List.append_assoc]
  rfl

theorem slots_slotsMarks (h : ∀ d ∈ defaults, IsBare d) (first : Nat) :
    slots (slotsMarks first defaults) = List.range' first defaults.length := by
  induction first, defaults using Snippet.slotsFrom.induct with
  | case1 first => rfl
  | case2 first last => exact slots_slotMarks first last (h last (by simp))
  | case3 first default rest hne ih =>
    obtain ⟨hdefault, hrest⟩ := List.forall_mem_cons.mp h
    rw [slotsMarks_cons hne, slots_append, slots_append, slots_slotMarks first default hdefault,
      ih hrest]
    rfl

theorem literals_slotsMarks (h : ∀ d ∈ defaults, IsBare d) (first : Nat) :
    (literals (slotsMarks first defaults)).Sublist (", ".intercalate defaults).toList := by
  induction first, defaults using Snippet.slotsFrom.induct with
  | case1 first => exact List.nil_sublist _
  | case2 first last =>
    rw [slotsMarks, literals_slotMarks, String.intercalate_singleton]
    exact literals_sublist (h last (by simp))
  | case3 first default rest hne ih =>
    obtain ⟨hdefault, hrest⟩ := List.forall_mem_cons.mp h
    rw [slotsMarks_cons hne, toList_intercalate_cons hne, literals_append, literals_append,
      literals_slotMarks]
    exact (literals_sublist hdefault).append ((List.Sublist.refl _).append (ih hrest))

/-- The slots stand for the list of their defaults if each default stands for itself. -/
theorem shows_slotsMarks (h : ∀ d ∈ defaults, IsBare d) (first : Nat) :
    Shows (slotsMarks first defaults) (", ".intercalate defaults).toList ↔
      ∀ d ∈ defaults, IsInert d.toList := by
  induction first, defaults using Snippet.slotsFrom.induct with
  | case1 first => simp [slotsMarks, Shows, names, literals]
  | case2 first last =>
    rw [slotsMarks, String.intercalate_singleton, shows_slotMarks _ _ (h last (by simp)),
      List.forall_mem_singleton]
  | case3 first default rest hne ih =>
    obtain ⟨hdefault, hrest⟩ := List.forall_mem_cons.mp h
    have hslot : (literals (slotMarks first default)).Sublist default.toList := by
      rw [literals_slotMarks]
      exact literals_sublist hdefault
    have htail : (literals ([.char ',', .char ' '] ++ slotsMarks (first + 1) rest)).Sublist
        ([',', ' '] ++ (", ".intercalate rest).toList) :=
      (List.Sublist.refl [',', ' ']).append (literals_slotsMarks hrest (first + 1))
    rw [slotsMarks_cons hne, toList_intercalate_cons hne, List.forall_mem_cons,
      shows_append hslot htail, shows_slotMarks _ _ hdefault, ← ih hrest]
    simp only [List.cons_append, List.nil_append, shows_cons_char]

end slots

def callMarks (name : String) (arguments : List String) : List SnippetMark :=
  snippetMarks 0 name.toList ++ ([.char '('] ++ (slotsMarks 1 arguments ++ [.char ')', .char ';']))

section calls

variable {name : String} {arguments : List String}

theorem snippetMarks_call (hname : IsBare name) (harguments : ∀ a ∈ arguments, IsBare a) :
    snippetMarks 0 (Snippet.call name arguments ";").render.toList = callMarks name arguments := by
  have hends (s : List Char) : EndsReference ('(' :: s) := by
    simp [EndsReference, isNameChar, isNameStart]
  have hlast : snippetMarks 0 [')', ';'] = [.char ')', .char ';'] := by
    rw [snippetMarks_char rfl (by decide), snippetMarks_char rfl (by decide), snippetMarks]
  have htext : (Snippet.call name arguments ";").render.toList = name.toList ++ ('(' ::
      ((Snippet.render ⟨Snippet.slotsFrom 1 arguments⟩).toList ++ [')', ';'])) := by
    simp [Snippet.call, Snippet.render, SnippetPart.render]
  rw [htext, snippetMarks_append hname (hends _), snippetMarks_char rfl (by decide),
    snippetMarks_slotsFrom harguments, hlast, callMarks, List.singleton_append]

/-- A call has a slot for each argument. -/
theorem slots_callMarks (hname : IsBare name) (harguments : ∀ a ∈ arguments, IsBare a) :
    slots (callMarks name arguments) = List.range' 1 arguments.length := by
  rw [callMarks, slots_append, slots_append, slots_append, slots_of_bare hname,
    slots_slotsMarks harguments]
  exact List.append_nil _

/-- A call stands for itself if its name and its arguments do. -/
theorem shows_callMarks (hname : IsBare name) (harguments : ∀ a ∈ arguments, IsBare a) :
    Shows (callMarks name arguments)
        (name ++ "(" ++ ", ".intercalate arguments ++ ");").toList ↔
      IsInert name.toList ∧ ∀ a ∈ arguments, IsInert a.toList := by
  have htext : (name ++ "(" ++ ", ".intercalate arguments ++ ");").toList =
      name.toList ++ (['('] ++ ((", ".intercalate arguments).toList ++ [')', ';'])) := by
    simp
  have hslots : (literals (slotsMarks 1 arguments ++ [.char ')', .char ';'])).Sublist
      ((", ".intercalate arguments).toList ++ [')', ';']) := by
    rw [literals_append]
    exact (literals_slotsMarks harguments 1).append (List.Sublist.refl [')', ';'])
  have hcall :
      (literals ([.char '('] ++ (slotsMarks 1 arguments ++ [.char ')', .char ';']))).Sublist
        (['('] ++ ((", ".intercalate arguments).toList ++ [')', ';'])) := hslots.cons_cons '('
  have hlast : (literals [.char ')', .char ';']).Sublist [')', ';'] := .refl _
  have hend : Shows [.char ')', .char ';'] [')', ';'] := ⟨rfl, rfl⟩
  rw [htext, callMarks, shows_append (literals_sublist hname) hcall,
    shows_iff_isInert hname, List.singleton_append, List.singleton_append, shows_cons_char,
    shows_append (literals_slotsMarks harguments 1) hlast,
    shows_slotsMarks harguments, and_iff_left hend]

end calls

end SnippetMark

end SolidityCompass
