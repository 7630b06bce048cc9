import SolidityCompass.Text.CharClass

/-!
# Access chains

The expression in front of a cursor, such as `tokens[id].owner()`, is read backwards from the
column where it ends. It is a chain of accesses: names, calls and indexed names, separated by
dots. What stands between brackets is passed over, brackets of the same shape matched.
-/

namespace SolidityCompass

/-- How a name in a chain is used. An access whose closing bracket has no partner is `broken`. -/
inductive AccessKind where
  | variable
  | call
  | broken
deriving Repr, DecidableEq, Inhabited

structure Access where
  name : String
  kind : AccessKind
  indexes : Nat
deriving Repr, DecidableEq, Inhabited

namespace Access

def isVariable (a : Access) : Bool := a.kind = .variable

def isCall (a : Access) : Bool := a.kind = .call

def isIndexed (a : Access) : Bool := a.indexes != 0

end Access

structure Chain where
  root : Access
  rest : List Access
deriving Repr, DecidableEq, Inhabited

namespace Chain

def accesses (chain : Chain) : List Access :=
  chain.root :: chain.rest

def last (chain : Chain) : Access :=
  chain.rest.getLast?.getD chain.root

def isBlank (chain : Chain) : Bool :=
  chain.last.name = ""

/-- The characters before the bracket that opens the group, when `inner` more groups of the same
shape are closed already. Characters are given the nearest first. -/
def beforeGroup? (opening closing : Char) : Nat → List Char → Option (List Char)
  | _, [] => none
  | inner, c :: cs =>
    if c = closing then beforeGroup? opening closing (inner + 1) cs
    else if c = opening then
      match inner with
      | 0 => some cs
      | inner + 1 => beforeGroup? opening closing inner cs
    else beforeGroup? opening closing inner cs

theorem length_beforeGroup?_lt {opening closing : Char} {inner : Nat} {cs rest : List Char}
    (h : beforeGroup? opening closing inner cs = some rest) : rest.length < cs.length := by
  fun_induction beforeGroup? opening closing inner cs with
  | case1 => cases h
  | case2 _ cs ih => exact Nat.lt_succ_of_lt (ih h)
  | case3 => cases h; simp
  | case4 _ cs _ ih => exact Nat.lt_succ_of_lt (ih h)
  | case5 _ _ cs _ _ ih => exact Nat.lt_succ_of_lt (ih h)

/-- The number of indexes at the end, and the characters before them unless a bracket has no
partner. -/
def indexes : List Char → Nat × Option (List Char)
  | [] => (0, some [])
  | c :: cs =>
    if c = ']' then
      match h : beforeGroup? '[' ']' 0 cs with
      | none => (0, none)
      | some rest =>
        have := length_beforeGroup?_lt h
        match indexes rest with
        | (n, before) => (n + 1, before)
    else (0, some (c :: cs))
termination_by cs => cs.length

theorem length_indexes_le {cs rest : List Char} {n : Nat} (h : indexes cs = (n, some rest)) :
    rest.length ≤ cs.length := by
  fun_induction indexes cs generalizing n with
  | case1 => cases h; simp
  | case2 => cases h
  | case3 cs mid hmid hlt n before hn ih =>
    cases h
    have hle := ih hn
    simp
    omega
  | case4 => cases h; simp

def arguments : List Char → Bool × Option (List Char)
  | ')' :: cs => (true, beforeGroup? '(' ')' 0 cs)
  | cs => (false, some cs)

theorem length_arguments_le {cs rest : List Char} {isCall : Bool}
    (h : arguments cs = (isCall, some rest)) : rest.length ≤ cs.length := by
  unfold arguments at h
  split at h
  next cs =>
    have hlt := length_beforeGroup?_lt (Prod.mk.inj h).2
    simp
    omega
  next => cases h; simp

def accessBefore (cs : List Char) : Access × Option (List Char) :=
  match indexes cs with
  | (n, none) => (⟨"", .broken, n⟩, none)
  | (n, some cs) =>
    match arguments cs with
    | (_, none) => (⟨"", .broken, n⟩, none)
    | (isCall, some cs) =>
      let name := String.ofList (cs.takeWhile isIdentPart).reverse
      let access : Access := ⟨name, if isCall then .call else .variable, n⟩
      match cs.dropWhile isIdentPart with
      | '.' :: rest => (access, some rest)
      | _ => (access, none)

theorem length_accessBefore_lt {cs rest : List Char} {access : Access}
    (h : accessBefore cs = (access, some rest)) : rest.length < cs.length := by
  unfold accessBefore at h
  split at h
  next => cases h
  next n cs₁ h₁ =>
    have hle := length_indexes_le h₁
    split at h
    next => cases h
    next isCall cs₂ h₂ =>
      have hle' := length_arguments_le h₂
      dsimp only at h
      split at h
      next rest' hd =>
        cases h
        have hlt : (cs₂.dropWhile isIdentPart).length ≤ cs₂.length :=
          (List.dropWhile_sublist _).length_le
        rw [hd] at hlt
        simp at hlt
        omega
      next => cases h

def before (later : List Access) (cs : List Char) : Chain :=
  match h : accessBefore cs with
  | (access, none) => ⟨access, later⟩
  | (access, some rest) =>
    have := length_accessBefore_lt h
    before (access :: later) rest
termination_by cs.length

def ending (line : String) (column : Nat) : Chain :=
  before [] (line.toList.take column).reverse

end Chain

end SolidityCompass
