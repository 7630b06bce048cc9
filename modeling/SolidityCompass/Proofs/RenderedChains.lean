import Mathlib.Data.List.Induction
import Mathlib.Data.List.TakeWhile
import SolidityCompass.Chain

/-!
# Chains are read back from their texts

`AccessText` is an access as it is written: a name, possibly arguments in parentheses, and indexes
in square brackets, where the brackets around them are matched by their own shape only. Reading
backwards from the end of such texts with dots between them finds their accesses again. The other
way round, what is read is written so in front of the column, unless a closing bracket without a
partner is met on the way; then reading stops there, and its first access is broken.
-/

namespace SolidityCompass

namespace Chain

def openAfter (opening closing : Char) : Nat → List Char → Option Nat
  | n, [] => some n
  | n, c :: cs =>
    if c = closing then
      match n with
      | 0 => none
      | n + 1 => openAfter opening closing n cs
    else if c = opening then openAfter opening closing (n + 1) cs
    else openAfter opening closing n cs

def Balanced (opening closing : Char) (cs : List Char) : Prop :=
  openAfter opening closing 0 cs = some 0

instance (opening closing : Char) (cs : List Char) : Decidable (Balanced opening closing cs) :=
  inferInstanceAs (Decidable (openAfter opening closing 0 cs = some 0))

/-- A closing bracket behind the characters has no partner among them. -/
def Unmatched (opening closing : Char) (cs : List Char) : Prop :=
  ∀ front inner, cs = front ++ opening :: inner → ¬ Balanced opening closing inner

section brackets

variable {opening closing : Char} {m n : Nat} {cs rest : List Char}

theorem openAfter_append (as bs : List Char) :
    openAfter opening closing n (as ++ bs) =
      (openAfter opening closing n as).bind (fun m => openAfter opening closing m bs) := by
  induction as generalizing n with
  | nil => rfl
  | cons c as ih =>
    simp only [List.cons_append, openAfter]
    split
    · cases n with
      | zero => rfl
      | succ n => exact ih
    · split <;> exact ih

/-- Read backwards, the characters count down what they open. -/
theorem beforeGroup?_of_openAfter (h : openAfter opening closing m cs = some n)
    (rest : List Char) :
    beforeGroup? opening closing n (cs.reverse ++ rest) = beforeGroup? opening closing m rest := by
  induction cs generalizing m rest with
  | nil =>
    cases h
    rfl
  | cons c cs ih =>
    rw [List.reverse_cons, List.append_assoc, List.singleton_append]
    simp only [openAfter] at h
    by_cases hclose : c = closing
    · rw [if_pos hclose] at h
      cases m with
      | zero => cases h
      | succ m => rw [ih h, beforeGroup?.eq_def]; simp [hclose]
    · rw [if_neg hclose] at h
      by_cases hopen : c = opening
      · rw [if_pos hopen] at h
        rw [ih h, beforeGroup?.eq_def]
        simp [hopen, hopen ▸ hclose]
      · rw [if_neg hopen] at h
        rw [ih h, beforeGroup?.eq_def]
        simp [hclose, hopen]

theorem beforeGroup?_of_balanced (h : Balanced opening closing cs) (hne : opening ≠ closing)
    (rest : List Char) :
    beforeGroup? opening closing 0 (cs.reverse ++ opening :: rest) = some rest := by
  rw [beforeGroup?_of_openAfter h, beforeGroup?, if_neg hne, if_pos rfl]

theorem exists_of_beforeGroup? (h : beforeGroup? opening closing n cs = some rest) :
    ∃ inner, cs = inner.reverse ++ opening :: rest ∧
      openAfter opening closing 0 inner = some n := by
  -- One more character is read behind what was read before it.
  have hlast {c : Char} {cs : List Char} {k n : Nat}
      (hc : openAfter opening closing k [c] = some n)
      (hcs : ∃ inner, cs = inner.reverse ++ opening :: rest ∧
        openAfter opening closing 0 inner = some k) :
      ∃ inner, c :: cs = inner.reverse ++ opening :: rest ∧
        openAfter opening closing 0 inner = some n := by
    obtain ⟨inner, rfl, hinner⟩ := hcs
    exact ⟨inner ++ [c], by simp, by rw [openAfter_append, hinner, Option.bind_some, hc]⟩
  fun_induction beforeGroup? opening closing n cs with
  | case1 => cases h
  | case2 n cs ih => exact hlast (by simp [openAfter]) (ih h)
  | case3 cs hne =>
    cases h
    exact ⟨[], rfl, rfl⟩
  | case4 cs n hne ih => exact hlast (by simp [openAfter, hne]) (ih h)
  | case5 n c cs hclose hopen ih => exact hlast (by simp [openAfter, hclose, hopen]) (ih h)

theorem beforeGroup?_eq_none_iff (hne : opening ≠ closing) :
    beforeGroup? opening closing 0 cs = none ↔ Unmatched opening closing cs.reverse := by
  constructor
  · intro hnone front inner hcs hinner
    have hcs' : cs = inner.reverse ++ opening :: front.reverse := by
      rw [← List.reverse_reverse cs, hcs]
      simp
    rw [hcs', beforeGroup?_of_balanced hinner hne] at hnone
    cases hnone
  · intro hunmatched
    rw [Option.eq_none_iff_forall_ne_some]
    intro rest hsome
    obtain ⟨inner, hcs, hinner⟩ := exists_of_beforeGroup? hsome
    exact hunmatched rest.reverse inner (by simp [hcs]) hinner

end brackets

def group (opening closing : Char) (cs : List Char) : List Char :=
  opening :: (cs ++ [closing])

def brackets (indexes : List (List Char)) : List Char :=
  indexes.flatMap (group '[' ']')

def callOf (arguments : Option (List Char)) : List Char :=
  (arguments.map (group '(' ')')).getD []

structure AccessText where
  name : List Char
  arguments : Option (List Char)
  indexes : List (List Char)
  isIdentPart_name : ∀ c ∈ name, isIdentPart c = true
  balanced_arguments : ∀ cs ∈ arguments, Balanced '(' ')' cs
  balanced_indexes : ∀ cs ∈ indexes, Balanced '[' ']' cs

namespace AccessText

def chars (t : AccessText) : List Char :=
  t.name ++ callOf t.arguments ++ brackets t.indexes

def access (t : AccessText) : Access :=
  ⟨String.ofList t.name, if t.arguments.isSome then .call else .variable, t.indexes.length⟩

end AccessText

def members (texts : List AccessText) : List Char :=
  texts.flatMap ('.' :: ·.chars)

theorem intercalate_chars (t : AccessText) (texts : List AccessText) :
    ['.'].intercalate ((t :: texts).map AccessText.chars) = t.chars ++ members texts := by
  induction texts generalizing t with
  | nil => simp [members]
  | cons u texts ih =>
    rw [List.map_cons, List.map_cons, List.intercalate_cons_cons, ← List.map_cons, ih]
    simp [members]

theorem indexes_brackets {ixs : List (List Char)} (h : ∀ cs ∈ ixs, Balanced '[' ']' cs)
    (front : List Char) :
    indexes (front ++ brackets ixs).reverse =
      ((indexes front.reverse).1 + ixs.length, (indexes front.reverse).2) := by
  induction ixs using List.reverseRecOn with
  | nil => simp [brackets]
  | append_singleton ixs cs ih =>
    have hcs := h cs (by simp)
    have hrev : (front ++ brackets (ixs ++ [cs])).reverse =
        ']' :: (cs.reverse ++ '[' :: (front ++ brackets ixs).reverse) := by
      simp [brackets, group]
    have hinit := ih fun b hb => h b (List.mem_append_left _ hb)
    rw [hrev, indexes, if_pos rfl]
    split
    next hnone => rw [beforeGroup?_of_balanced hcs (by decide)] at hnone; cases hnone
    next rest hsome =>
      rw [beforeGroup?_of_balanced hcs (by decide)] at hsome
      cases hsome
      rw [hinit]
      simp [Nat.add_assoc]

theorem indexes_of_head? {cs : List Char} (h : ∀ c ∈ cs.head?, c ≠ ']') :
    indexes cs = (0, some cs) := by
  cases cs with
  | nil => rw [indexes]
  | cons c cs => rw [indexes, if_neg (h c rfl)]

theorem arguments_of_head? {cs : List Char} (h : ∀ c ∈ cs.head?, c ≠ ')') :
    arguments cs = (false, some cs) := by
  unfold arguments
  split
  next => exact absurd rfl (h ')' rfl)
  next => rfl

theorem arguments_group {cs : List Char} (h : Balanced '(' ')' cs) (front : List Char) :
    arguments (front ++ group '(' ')' cs).reverse = (true, some front.reverse) := by
  have hrev :
      (front ++ group '(' ')' cs).reverse = ')' :: (cs.reverse ++ '(' :: front.reverse) := by
    simp [group]
  rw [hrev, arguments, beforeGroup?_of_balanced h (by decide)]

/-- The name of a text ends with no bracket, and neither do the characters in front of a text
without a name. -/
theorem ne_bracket_of_getLast? (t : AccessText) {front : List Char}
    (hfront : t.name ≠ [] ∨ ∀ c ∈ front.getLast?, c ≠ ']' ∧ c ≠ ')') :
    ∀ c ∈ (front ++ t.name).reverse.head?, c ≠ ']' ∧ c ≠ ')' := by
  intro c hc
  rw [List.head?_reverse, List.getLast?_append] at hc
  rcases List.eq_nil_or_concat t.name with hname | ⟨init, last, hname⟩
  · rw [hname] at hc
    exact hfront.elim (absurd hname) fun h => h c hc
  · have hlast := t.isIdentPart_name last (by simp [hname])
    obtain rfl : last = c := by simpa [hname] using hc
    constructor
    · rintro rfl
      exact absurd hlast (by decide)
    · rintro rfl
      exact absurd hlast (by decide)

def beforeDot? : List Char → Option (List Char)
  | '.' :: rest => some rest
  | _ => none

/-- An access is read as its indexes, its arguments and its name. -/
theorem accessBefore_of_some {cs mid left : List Char} {n : Nat} {isCall : Bool}
    (hindexes : indexes cs = (n, some mid)) (harguments : arguments mid = (isCall, some left)) :
    accessBefore cs =
      (⟨String.ofList (left.takeWhile isIdentPart).reverse, if isCall then .call else .variable, n⟩,
        beforeDot? (left.dropWhile isIdentPart)) := by
  simp only [accessBefore, hindexes, harguments]
  cases hrest : left.dropWhile isIdentPart with
  | nil => rfl
  | cons c rest =>
    by_cases hc : c = '.'
    · rw [hc]
      rfl
    · simp [beforeDot?, hc]

theorem accessBefore_of_indexes_none {cs : List Char} {n : Nat} (h : indexes cs = (n, none)) :
    accessBefore cs = (⟨"", .broken, n⟩, none) := by
  simp only [accessBefore, h]

theorem accessBefore_of_arguments_none {cs mid : List Char} {n : Nat} {isCall : Bool}
    (hindexes : indexes cs = (n, some mid)) (harguments : arguments mid = (isCall, none)) :
    accessBefore cs = (⟨"", .broken, n⟩, none) := by
  simp only [accessBefore, hindexes, harguments]

/-- What is read of a text, if the characters in front of it do not go on into it. -/
theorem accessBefore_chars (t : AccessText) {front : List Char}
    (hname : t.name ≠ [] ∨ ∀ c ∈ front.getLast?, c ≠ ']' ∧ c ≠ ')')
    (hfront : ∀ c ∈ front.getLast?, isIdentPart c = false) :
    accessBefore (front ++ t.chars).reverse = (t.access, beforeDot? front.reverse) := by
  have hplain := ne_bracket_of_getLast? t hname
  have hindexes : ∃ mid, indexes (front ++ t.chars).reverse = (t.indexes.length, some mid) ∧
      arguments mid = (t.arguments.isSome, some (front ++ t.name).reverse) := by
    rw [AccessText.chars, ← List.append_assoc, indexes_brackets t.balanced_indexes]
    cases hargs : t.arguments with
    | some cs =>
      refine ⟨(front ++ t.name ++ group '(' ')' cs).reverse, ?_,
        arguments_group (t.balanced_arguments cs hargs) _⟩
      rw [callOf, Option.map_some, Option.getD_some, ← List.append_assoc,
        indexes_of_head? (by simp [group])]
      simp
    | none =>
      refine ⟨(front ++ t.name).reverse, ?_, arguments_of_head? fun c hc => (hplain c hc).2⟩
      rw [callOf, Option.map_none, Option.getD_none, List.append_nil,
        indexes_of_head? fun c hc => (hplain c hc).1]
      simp
  obtain ⟨mid, hmid, hargs⟩ := hindexes
  have hletters : ∀ c ∈ t.name.reverse, isIdentPart c = true :=
    fun c hc => t.isIdentPart_name c (List.mem_reverse.mp hc)
  have hstop : front.reverse.takeWhile isIdentPart = [] ∧
      front.reverse.dropWhile isIdentPart = front.reverse := by
    rw [← List.head?_reverse] at hfront
    cases hrev : front.reverse with
    | nil => exact ⟨rfl, rfl⟩
    | cons c cs =>
      have hc := hfront c (by rw [hrev]; rfl)
      simp [hc]
  have htake : (front ++ t.name).reverse.takeWhile isIdentPart = t.name.reverse := by
    rw [List.reverse_append, List.takeWhile_append_of_pos hletters, hstop.1, List.append_nil]
  have hdrop : (front ++ t.name).reverse.dropWhile isIdentPart = front.reverse := by
    rw [List.reverse_append, List.dropWhile_append_of_pos hletters, hstop.2]
  rw [accessBefore_of_some hmid hargs, htake, hdrop, List.reverse_reverse]
  rfl

theorem before_eq (later : List Access) (cs : List Char) :
    before later cs =
      match accessBefore cs with
      | (access, none) => ⟨access, later⟩
      | (access, some rest) => before (access :: later) rest := by
  rw [before]
  split <;> simp_all

/-- Behind a dot the text of an access is read, and reading goes on in front of the dot. -/
theorem before_member (t : AccessText) (later : List Access) (front : List Char) :
    before later (front ++ '.' :: t.chars).reverse = before (t.access :: later) front.reverse := by
  have hstep : accessBefore ((front ++ ['.']) ++ t.chars).reverse =
      (t.access, beforeDot? (front ++ ['.']).reverse) :=
    accessBefore_chars t (Or.inr (by simp)) (by simp; decide)
  rw [List.append_assoc, List.singleton_append] at hstep
  rw [before_eq, hstep]
  simp [beforeDot?]

theorem before_members (texts : List AccessText) (later : List Access) (front : List Char) :
    before later (front ++ members texts).reverse =
      before (texts.map AccessText.access ++ later) front.reverse := by
  induction texts using List.reverseRecOn generalizing later with
  | nil => simp [members]
  | append_singleton texts t ih =>
    have hassoc : front ++ members (texts ++ [t]) = (front ++ members texts) ++ '.' :: t.chars := by
      simp [members]
    rw [hassoc, before_member, ih]
    simp

def EndsBefore (front : List Char) : Prop :=
  ∀ c ∈ front.getLast?, isIdentPart c = false ∧ c ≠ '.'

theorem before_root (t : AccessText) (later : List Access) {front : List Char}
    (hname : t.name ≠ []) (hfront : EndsBefore front) :
    before later (front ++ t.chars).reverse = ⟨t.access, later⟩ := by
  have hstop : beforeDot? front.reverse = none := by
    unfold EndsBefore at hfront
    rw [← List.head?_reverse] at hfront
    unfold beforeDot?
    split
    next rest hrest => exact absurd rfl (hfront '.' (by simp [hrest])).2
    next => rfl
  rw [before_eq, accessBefore_chars t (Or.inl hname) fun c hc => (hfront c hc).1, hstop]

/-- A bracket behind the characters and some indexes has no partner among them. -/
def IsStray (front : List Char) (bracket : Char) : Prop :=
  bracket = ']' ∧ Unmatched '[' ']' front ∨ bracket = ')' ∧ Unmatched '(' ')' front

/-- Reading backwards from the end of the characters, some texts of accesses and the indexes of
another one are passed over, and then a closing bracket without a partner is met. -/
def MeetsStray (cs : List Char) : Prop :=
  ∃ front bracket ixs texts, cs = front ++ bracket :: (brackets ixs ++ members texts) ∧
    IsStray front bracket ∧ ∀ b ∈ ixs, Balanced '[' ']' b

theorem accessBefore_of_isStray {front : List Char} {bracket : Char} {ixs : List (List Char)}
    (h : IsStray front bracket) (hixs : ∀ b ∈ ixs, Balanced '[' ']' b) :
    accessBefore (front ++ bracket :: brackets ixs).reverse = (⟨"", .broken, ixs.length⟩, none) := by
  have hindexes := indexes_brackets hixs (front ++ [bracket])
  rw [List.append_assoc, List.singleton_append, List.reverse_concat] at hindexes
  rcases h with ⟨rfl, hfront⟩ | ⟨rfl, hfront⟩
  · rw [← List.reverse_reverse front, ← beforeGroup?_eq_none_iff (by decide)] at hfront
    have hnone : indexes (']' :: front.reverse) = (0, none) := by
      rw [indexes, if_pos rfl]
      split
      next => rfl
      next hsome => rw [hfront] at hsome; cases hsome
    rw [hnone, Nat.zero_add] at hindexes
    exact accessBefore_of_indexes_none hindexes
  · rw [← List.reverse_reverse front, ← beforeGroup?_eq_none_iff (by decide)] at hfront
    have hsome : indexes (')' :: front.reverse) = (0, some (')' :: front.reverse)) :=
      indexes_of_head? (by simp)
    rw [hsome, Nat.zero_add] at hindexes
    exact accessBefore_of_arguments_none hindexes (by rw [arguments, hfront])

/-- What is passed over as indexes is written so, and in front of it stands either the rest or a
bracket without a partner. -/
theorem exists_of_indexes (cs : List Char) :
    ∃ left ixs, cs.reverse = left ++ brackets ixs ∧ (∀ b ∈ ixs, Balanced '[' ']' b) ∧
      (indexes cs = (ixs.length, some left.reverse) ∨ indexes cs = (ixs.length, none) ∧
        ∃ front, left = front ++ [']'] ∧ Unmatched '[' ']' front) := by
  fun_induction indexes cs with
  | case1 => exact ⟨[], [], rfl, by simp, Or.inl rfl⟩
  | case2 cs hnone =>
    exact ⟨(']' :: cs).reverse, [], by simp [brackets], by simp,
      Or.inr ⟨rfl, cs.reverse, by simp, (beforeGroup?_eq_none_iff (by decide)).mp hnone⟩⟩
  | case3 cs rest hsome _ n before hn ih =>
    obtain ⟨inner, rfl, hinner⟩ := exists_of_beforeGroup? hsome
    obtain ⟨left, ixs, hrest, hixs, hleft⟩ := ih
    refine ⟨left, ixs ++ [inner], by simp [hrest, brackets, group], ?_, ?_⟩
    · intro b hb
      rcases List.mem_append.mp hb with hb | hb
      · exact hixs b hb
      · rw [List.mem_singleton.mp hb]
        exact hinner
    · simpa [hn] using hleft
  | case4 c cs hc => exact ⟨(c :: cs).reverse, [], by simp [brackets], by simp, Or.inl (by simp)⟩

/-- The same for arguments. -/
theorem exists_of_arguments (cs : List Char) :
    (∃ left args, cs.reverse = left ++ callOf args ∧ (∀ a ∈ args, Balanced '(' ')' a) ∧
      arguments cs = (args.isSome, some left.reverse)) ∨
    arguments cs = (true, none) ∧ ∃ front, cs.reverse = front ++ [')'] ∧ Unmatched '(' ')' front := by
  unfold arguments
  split
  next cs =>
    cases h : beforeGroup? '(' ')' 0 cs with
    | none =>
      exact Or.inr ⟨rfl, cs.reverse, by simp, (beforeGroup?_eq_none_iff (by decide)).mp h⟩
    | some rest =>
      obtain ⟨inner, rfl, hinner⟩ := exists_of_beforeGroup? h
      refine Or.inl ⟨rest.reverse, some inner, by simp [callOf, group], ?_, by simp⟩
      rintro a ⟨⟩
      exact hinner
  next => exact Or.inl ⟨cs.reverse, none, by simp [callOf], by simp, by simp⟩

/-- One access: either it is written in front of the end, or a bracket without a partner is met. -/
theorem exists_of_accessBefore (cs : List Char) :
    (∃ front t, cs.reverse = front ++ t.chars ∧ (∀ c ∈ front.getLast?, isIdentPart c = false) ∧
      accessBefore cs = (AccessText.access t, beforeDot? front.reverse)) ∨
    ∃ front bracket ixs, cs.reverse = front ++ bracket :: brackets ixs ∧ IsStray front bracket ∧
      (∀ b ∈ ixs, Balanced '[' ']' b) ∧ accessBefore cs = (⟨"", .broken, ixs.length⟩, none) := by
  obtain ⟨left, ixs, hcs, hixs, hindexes | ⟨hindexes, front, rfl, hfront⟩⟩ := exists_of_indexes cs
  · rcases exists_of_arguments left.reverse with
      ⟨mid, args, hleft, hargs, harguments⟩ | ⟨harguments, front, hleft, hfront⟩
    · rw [List.reverse_reverse] at hleft
      have hletters : ∀ c ∈ (mid.reverse.takeWhile isIdentPart).reverse, isIdentPart c = true :=
        fun c hc => List.mem_takeWhile_imp (List.mem_reverse.mp hc)
      have hmid : mid = (mid.reverse.dropWhile isIdentPart).reverse ++
          (mid.reverse.takeWhile isIdentPart).reverse := by
        rw [← List.reverse_append, List.takeWhile_append_dropWhile, List.reverse_reverse]
      refine Or.inl ⟨(mid.reverse.dropWhile isIdentPart).reverse,
        ⟨_, args, ixs, hletters, hargs, hixs⟩, ?_, ?_, ?_⟩
      · rw [AccessText.chars, ← List.append_assoc, ← List.append_assoc, ← hmid, ← hleft, hcs]
      · intro c hc
        have hstop := List.head?_dropWhile_not isIdentPart mid.reverse
        rw [List.getLast?_reverse, Option.mem_def] at hc
        rw [hc] at hstop
        simpa using hstop
      · rw [accessBefore_of_some hindexes harguments, List.reverse_reverse]
        rfl
    · rw [List.reverse_reverse] at hleft
      subst hleft
      exact Or.inr ⟨front, ')', ixs, by simpa using hcs, Or.inr ⟨rfl, hfront⟩, hixs,
        accessBefore_of_arguments_none hindexes harguments⟩
  · exact Or.inr ⟨front, ']', ixs, by simpa using hcs, Or.inl ⟨rfl, hfront⟩, hixs,
      accessBefore_of_indexes_none hindexes⟩

theorem beforeDot?_eq_some {cs rest : List Char} (h : beforeDot? cs = some rest) :
    cs = '.' :: rest := by
  unfold beforeDot? at h
  split at h
  next => rw [Option.some.inj h]
  next => cases h

theorem endsBefore_of_beforeDot? {front : List Char}
    (hident : ∀ c ∈ front.getLast?, isIdentPart c = false)
    (hdot : beforeDot? front.reverse = none) : EndsBefore front := by
  refine fun c hc => ⟨hident c hc, ?_⟩
  rintro rfl
  obtain ⟨init, rfl⟩ := List.getLast?_eq_some_iff.mp hc
  simp [beforeDot?] at hdot

/-- A whole chain: either it is written in front of the end, or a bracket without a partner is met
behind which the rest of the chain is written. -/
theorem exists_of_before (later : List Access) (cs : List Char) :
    (∃ front t texts, cs.reverse = front ++ (AccessText.chars t ++ members texts) ∧
      EndsBefore front ∧ before later cs = ⟨t.access, texts.map AccessText.access ++ later⟩) ∨
    ∃ front bracket ixs texts, cs.reverse = front ++ bracket :: (brackets ixs ++ members texts) ∧
      IsStray front bracket ∧ (∀ b ∈ ixs, Balanced '[' ']' b) ∧
      before later cs = ⟨⟨"", .broken, ixs.length⟩, texts.map AccessText.access ++ later⟩ := by
  fun_induction before later cs with
  | case1 later cs access hstep =>
    rcases exists_of_accessBefore cs with
      ⟨front, t, hcs, hfront, haccess⟩ | ⟨front, bracket, ixs, hcs, hstray, hixs, haccess⟩
    · obtain ⟨rfl, hdot⟩ := Prod.mk.inj (hstep.symm.trans haccess)
      exact Or.inl ⟨front, t, [], by simpa [members] using hcs,
        endsBefore_of_beforeDot? hfront hdot.symm, rfl⟩
    · obtain ⟨rfl, -⟩ := Prod.mk.inj (hstep.symm.trans haccess)
      exact Or.inr ⟨front, bracket, ixs, [], by simpa [members] using hcs, hstray, hixs, rfl⟩
  | case2 later cs access rest hstep _ ih =>
    rcases exists_of_accessBefore cs with
      ⟨front, t, hcs, -, haccess⟩ | ⟨_, _, _, _, _, _, haccess⟩
    · obtain ⟨rfl, hdot⟩ := Prod.mk.inj (hstep.symm.trans haccess)
      have hrev : rest.reverse ++ '.' :: t.chars = cs.reverse := by
        rw [hcs, ← List.reverse_reverse front, beforeDot?_eq_some hdot.symm]
        simp
      -- The access stands at the end of the chain that is read in front of its dot.
      rcases ih with
        ⟨front', root, texts, hrest, hfront', heq⟩ | ⟨front', bracket, ixs, texts, hrest, hstray⟩
      · refine Or.inl ⟨front', root, texts ++ [t], ?_, hfront', by simpa using heq⟩
        rw [← hrev, hrest]
        simp [members]
      · refine Or.inr ⟨front', bracket, ixs, texts ++ [t], ?_, by simpa using hstray⟩
        rw [← hrev, hrest]
        simp [members]
    · cases hstep.symm.trans haccess

theorem kind_access_ne_broken (t : AccessText) : t.access.kind ≠ .broken := by
  unfold AccessText.access
  split <;> simp

/-- Texts of accesses in front of a column are read back as these accesses. The other way round,
what is read before a column is written there, unless a closing bracket without a partner is met;
that is the case exactly if an access that is read is broken. -/
theorem ending_reads_accessTexts (line : String) (column : Nat) :
    (∀ (front : List Char) (texts : List AccessText), EndsBefore front → texts ≠ [] →
      (∀ t ∈ texts, t.name ≠ []) →
      line.toList.take column = front ++ ['.'].intercalate (texts.map AccessText.chars) →
      (ending line column).accesses = texts.map AccessText.access) ∧
    (¬ MeetsStray (line.toList.take column) →
      ∃ (front : List Char) (texts : List AccessText), EndsBefore front ∧ texts ≠ [] ∧
        line.toList.take column = front ++ ['.'].intercalate (texts.map AccessText.chars) ∧
        (ending line column).accesses = texts.map AccessText.access) ∧
    (MeetsStray (line.toList.take column) ↔
      ∃ a ∈ (ending line column).accesses, a.kind = .broken) := by
  have hread := exists_of_before [] (line.toList.take column).reverse
  rw [List.reverse_reverse] at hread
  have hstray : MeetsStray (line.toList.take column) →
      ∃ a ∈ (ending line column).accesses, a.kind = .broken := by
    rintro ⟨front, bracket, ixs, texts, hline, hbracket, hixs⟩
    have hassoc : front ++ bracket :: (brackets ixs ++ members texts) =
        (front ++ bracket :: brackets ixs) ++ members texts := by simp
    rw [ending, hline, hassoc, before_members, before_eq, accessBefore_of_isStray hbracket hixs]
    exact ⟨_, List.mem_cons_self, rfl⟩
  refine ⟨?_, ?_, hstray, ?_⟩
  · intro front texts hfront hne hnames hline
    obtain ⟨t, texts, rfl⟩ := List.exists_cons_of_ne_nil hne
    rw [intercalate_chars, ← List.append_assoc] at hline
    rw [ending, hline, before_members, before_root t _ (hnames t List.mem_cons_self) hfront,
      List.append_nil]
    rfl
  · intro hclean
    rcases hread with ⟨front, t, texts, hline, hfront, hchain⟩ |
      ⟨front, bracket, ixs, texts, hline, hbracket, hixs, -⟩
    · refine ⟨front, t :: texts, hfront, List.cons_ne_nil _ _, by rw [intercalate_chars, hline], ?_⟩
      rw [ending, hchain, List.append_nil]
      rfl
    · exact absurd ⟨front, bracket, ixs, texts, hline, hbracket, hixs⟩ hclean
  · rintro ⟨a, ha, hbroken⟩
    rcases hread with ⟨front, t, texts, -, -, hchain⟩ |
      ⟨front, bracket, ixs, texts, hline, hbracket, hixs, -⟩
    · rw [ending, hchain, List.append_nil] at ha
      obtain ⟨u, -, rfl⟩ := List.mem_map.mp (show a ∈ (t :: texts).map AccessText.access from ha)
      exact absurd hbroken (kind_access_ne_broken u)
    · exact ⟨front, bracket, ixs, texts, hline, hbracket, hixs⟩

def gridText : AccessText where
  name := "grid".toList
  arguments := none
  indexes := ["idx[0)]".toList, "1".toList]
  isIdentPart_name := List.all_eq_true.mp (by decide)
  balanced_arguments := by simp
  balanced_indexes := by decide

def cellsText : AccessText where
  name := "cells".toList
  arguments := some "f(x])".toList
  indexes := []
  isIdentPart_name := List.all_eq_true.mp (by decide)
  balanced_arguments := by decide
  balanced_indexes := by simp

theorem ending_reads_accessTexts_of_grid :
    (ending "x + grid[idx[0)]][1].cells(f(x]));" 33).accesses =
        [⟨"grid", .variable, 2⟩, ⟨"cells", .call, 0⟩] ∧
      ¬ MeetsStray ("f(a.b".toList.take 5) ∧
      ∃ (front : List Char) (texts : List AccessText), EndsBefore front ∧ texts ≠ [] ∧
        "f(a.b".toList.take 5 = front ++ ['.'].intercalate (texts.map AccessText.chars) ∧
        (ending "f(a.b" 5).accesses = texts.map AccessText.access := by
  have hclean : ¬ MeetsStray ("f(a.b".toList.take 5) := by
    rw [(ending_reads_accessTexts "f(a.b" 5).2.2]
    decide +kernel
  refine ⟨?_, hclean, (ending_reads_accessTexts "f(a.b" 5).2.1 hclean⟩
  refine (ending_reads_accessTexts _ 33).1 "x + ".toList [gridText, cellsText] ?_ ?_ ?_ ?_
  · intro c hc
    obtain rfl : ' ' = c := by simpa using hc
    decide
  · exact List.cons_ne_nil _ _
  · decide
  · decide

end Chain

end SolidityCompass
