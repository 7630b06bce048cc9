import SolidityCompass.Outline.Basic
import SolidityCompass.Token.Stream

/-!
# Cursors

A cursor stands between two tokens of a text. Reading moves it forward only: what a reader
returns is `Reaches`-able from where it started, and `Passes` says that at least one token was
consumed on the way. The loops of the outline reader end by these two facts.
-/

namespace SolidityCompass

/-- The end of the last token consumed, the tokens ahead, and the end of the text. -/
structure Cursor where
  passed : Nat
  rest : List Token
  textEnd : Nat
deriving Repr, DecidableEq, Inhabited

namespace Cursor

def kind? (c : Cursor) : Option Kind :=
  c.rest.head?.map Token.kind

def kindAfter? (c : Cursor) (n : Nat) : Option Kind :=
  (c.rest[n]?).map Token.kind

def here (c : Cursor) : ByteRange :=
  match c.rest with
  | [] => .empty c.textEnd
  | t :: _ => t.range

def sees (c : Cursor) (kind : Kind) : Bool :=
  c.kind? == some kind

def seesAny (c : Cursor) (p : Kind → Bool) : Bool :=
  (c.kind?.map p).getD false

def seesWord (c : Cursor) (word : String) : Bool :=
  match c.rest with
  | [] => false
  | t :: _ => t.kind = .ident && t.text = word

def advance (c : Cursor) : Cursor :=
  match c.rest with
  | [] => c
  | t :: ts => { c with passed := t.range.stop, rest := ts }

def skip : Nat → Cursor → Cursor
  | 0, c => c
  | n + 1, c => skip n c.advance

@[simp] theorem rest_advance (c : Cursor) : c.advance.rest = c.rest.tail := by
  cases h : c.rest <;> simp [advance, h]

@[simp] theorem skip_zero (c : Cursor) : c.skip 0 = c := rfl

theorem skip_succ (c : Cursor) (n : Nat) : c.skip (n + 1) = c.advance.skip n := rfl

@[simp] theorem skip_skip (c : Cursor) (m n : Nat) : (c.skip m).skip n = c.skip (m + n) := by
  induction m generalizing c with
  | zero => simp
  | succ m ih => rw [skip_succ, ih, Nat.add_right_comm, skip_succ]

@[simp] theorem rest_skip (c : Cursor) (n : Nat) : (c.skip n).rest = c.rest.drop n := by
  induction n generalizing c with
  | zero => rfl
  | succ n ih => simp [skip_succ, ih, List.drop_tail]

def Reaches (c d : Cursor) : Prop :=
  ∃ n, d = c.skip n

/-- At least one token leads from `c` to `d`. -/
def Passes (c d : Cursor) : Prop :=
  c.rest ≠ [] ∧ c.advance.Reaches d

@[refl] theorem Reaches.refl (c : Cursor) : c.Reaches c := ⟨0, rfl⟩

theorem Reaches.trans {c d e : Cursor} (h : c.Reaches d) (h' : d.Reaches e) : c.Reaches e := by
  obtain ⟨m, rfl⟩ := h
  obtain ⟨n, rfl⟩ := h'
  exact ⟨m + n, by simp⟩

theorem reaches_skip (c : Cursor) (n : Nat) : c.Reaches (c.skip n) := ⟨n, rfl⟩

theorem reaches_advance (c : Cursor) : c.Reaches c.advance := ⟨1, rfl⟩

theorem Reaches.length_le {c d : Cursor} (h : c.Reaches d) :
    d.rest.length ≤ c.rest.length := by
  obtain ⟨n, rfl⟩ := h
  simp

theorem Passes.reaches {c d : Cursor} (h : c.Passes d) : c.Reaches d :=
  c.reaches_advance.trans h.2

theorem Passes.length_lt {c d : Cursor} (h : c.Passes d) :
    d.rest.length < c.rest.length := by
  have hle := h.2.length_le
  have hpos := List.length_pos_iff.mpr h.1
  simp at hle
  omega

theorem Passes.trans_reaches {c d e : Cursor} (h : c.Passes d) (h' : d.Reaches e) :
    c.Passes e :=
  ⟨h.1, h.2.trans h'⟩

theorem Reaches.trans_passes {c d e : Cursor} (h : c.Reaches d) (h' : d.Passes e) :
    c.Passes e := by
  obtain ⟨n, rfl⟩ := h
  obtain ⟨hne, m, rfl⟩ := h'
  refine ⟨fun hc => hne (by simp [hc]), n + m, ?_⟩
  rw [← skip_succ, skip_skip, ← skip_succ]
  rfl

theorem passes_advance {c : Cursor} (h : c.rest ≠ []) : c.Passes c.advance := ⟨h, .refl _⟩

theorem rest_ne_nil_of_kind? {c : Cursor} {kind : Kind} (h : c.kind? = some kind) :
    c.rest ≠ [] := by
  intro hc
  simp [kind?, hc] at h

theorem sees_of_kind? {c : Cursor} {kind : Kind} (h : c.kind? = some kind) :
    c.sees kind = true := by
  simp [sees, h]

theorem rest_ne_nil_of_sees {c : Cursor} {kind : Kind} (h : c.sees kind = true) :
    c.rest ≠ [] :=
  rest_ne_nil_of_kind? (show c.kind? = some kind by simpa [sees] using h)

theorem passes_advance_of_kind? {c : Cursor} {kind : Kind} (h : c.kind? = some kind) :
    c.Passes c.advance :=
  passes_advance (rest_ne_nil_of_kind? h)

theorem passes_advance_of_sees {c : Cursor} {kind : Kind} (h : c.sees kind = true) :
    c.Passes c.advance :=
  passes_advance (rest_ne_nil_of_sees h)

def eat? (c : Cursor) (kind : Kind) : Option Cursor :=
  if c.sees kind then some c.advance else none

theorem passes_of_eat? {c d : Cursor} {kind : Kind} (h : c.eat? kind = some d) :
    c.Passes d := by
  unfold eat? at h
  split at h
  next hs => cases h; exact passes_advance_of_sees hs
  next => cases h

def skipUntil (p : Kind → Bool) (c : Cursor) : Cursor :=
  c.skip (c.rest.takeWhile (fun t => !p t.kind)).length

theorem reaches_skipUntil (p : Kind → Bool) (c : Cursor) : c.Reaches (c.skipUntil p) :=
  c.reaches_skip _

def skipWords (words : List String) (c : Cursor) : Cursor :=
  c.skip (c.rest.takeWhile (fun t => t.kind = .ident && words.contains t.text)).length

theorem reaches_skipWords (words : List String) (c : Cursor) : c.Reaches (c.skipWords words) :=
  c.reaches_skip _

def skipWord (word : String) (c : Cursor) : Cursor :=
  if c.seesWord word then c.advance else c

theorem reaches_skipWord (word : String) (c : Cursor) : c.Reaches (c.skipWord word) := by
  unfold skipWord
  split
  · exact c.reaches_advance
  · exact .refl c

/-- Consumes a name that stands directly before a token of the given kind. -/
def skipNameBefore (kind : Kind) (c : Cursor) : Cursor :=
  if c.seesAny Kind.isName && c.kindAfter? 1 == some kind then c.advance else c

theorem reaches_skipNameBefore (kind : Kind) (c : Cursor) :
    c.Reaches (c.skipNameBefore kind) := by
  unfold skipNameBefore
  split
  · exact c.reaches_advance
  · exact .refl c

def name? (c : Cursor) : Option (Name × Cursor) :=
  match c.rest with
  | [] => none
  | t :: _ => if t.kind.isName then some (⟨t.text, t.range⟩, c.advance) else none

theorem passes_of_name? {c d : Cursor} {name : Name} (h : c.name? = some (name, d)) :
    c.Passes d := by
  unfold name? at h
  cases hr : c.rest with
  | nil => simp [hr] at h
  | cons t ts =>
    rw [hr] at h
    dsimp only at h
    split at h
    · cases h
      exact passes_advance (by simp [hr])
    · cases h

def segments : List Token → List String
  | point :: word :: ts =>
    if point.kind = .dot && word.kind = .ident then word.text :: segments ts else []
  | _ => []

def path? (c : Cursor) : Option (String × Cursor) :=
  c.name?.map fun (first, d) =>
    (".".intercalate (first.text :: segments d.rest), d.skip (2 * (segments d.rest).length))

theorem passes_of_path? {c d : Cursor} {path : String} (h : c.path? = some (path, d)) :
    c.Passes d := by
  obtain ⟨⟨first, e⟩, he, hd⟩ := Option.map_eq_some_iff.mp h
  cases hd
  exact (passes_of_name? he).trans_reaches (e.reaches_skip _)

def location? (c : Cursor) : Option DataLocation :=
  match c.kind? with
  | some (.keyword .memoryKw) => some .memory
  | some (.keyword .storageKw) => some .storage
  | some (.keyword .calldataKw) => some .calldata
  | _ => none

def skipLocation (c : Cursor) : Cursor :=
  if c.location?.isSome then c.advance else c

theorem reaches_skipLocation (c : Cursor) : c.Reaches c.skipLocation := by
  unfold skipLocation
  split
  · exact c.reaches_advance
  · exact .refl c

/-- The number of tokens up to and with the bracket that closes a group in which `inner` more
groups of the same shape are open, and whether there is such a bracket. -/
def groupLength (shape : Bracket) : Nat → List Token → Nat × Bool
  | _, [] => (0, false)
  | inner, t :: ts =>
    if t.kind = .opens shape then
      let tail := groupLength shape (inner + 1) ts
      (tail.1 + 1, tail.2)
    else if t.kind = .closes shape then
      match inner with
      | 0 => (1, true)
      | inner + 1 =>
        let tail := groupLength shape inner ts
        (tail.1 + 1, tail.2)
    else
      let tail := groupLength shape inner ts
      (tail.1 + 1, tail.2)

/-- Consumes the bracketed group that comes next, counting brackets of its own shape only.
Answers whether there was a group and it was closed. -/
def skipGroup (c : Cursor) : Bool × Cursor :=
  match c.kind? with
  | some (.opens shape) =>
    let group := groupLength shape 0 c.rest.tail
    (group.2, c.skip (group.1 + 1))
  | _ => (false, c)

theorem reaches_skipGroup (c : Cursor) : c.Reaches c.skipGroup.2 := by
  unfold skipGroup
  split
  · exact c.reaches_skip _
  · exact .refl c

theorem passes_skipGroup {c : Cursor} {shape : Bracket} (h : c.sees (.opens shape) = true) :
    c.Passes c.skipGroup.2 := by
  have hk : c.kind? = some (.opens shape) := by simpa [sees] using h
  refine ⟨rest_ne_nil_of_kind? hk, ?_⟩
  simp only [skipGroup, hk]
  rw [skip_succ]
  exact reaches_skip _ _

/-- The number of tokens of an item that is skipped: up to and with a `;` or the end of a block,
both outside of any bracket that opens on the way. A `}` that closes the enclosing block is
not part of the item. -/
def itemLength : Nat → List Token → Nat
  | _, [] => 0
  | depth, t :: ts =>
    match t.kind with
    | .semicolon => if depth = 0 then 1 else itemLength depth ts + 1
    | .opens _ => itemLength (depth + 1) ts + 1
    | .closes .brace =>
      match depth with
      | 0 => 0
      | 1 => 1
      | depth + 2 => itemLength (depth + 1) ts + 1
    | .closes _ => itemLength (depth - 1) ts + 1
    | _ => itemLength depth ts + 1

def skipItem (c : Cursor) : Cursor :=
  c.skip (itemLength 0 c.rest)

theorem reaches_skipItem (c : Cursor) : c.Reaches c.skipItem :=
  c.reaches_skip _

/-- Skipping an item stands still only before a `}` and at the end. -/
theorem passes_skipItem {c : Cursor} {kind : Kind} (h : c.kind? = some kind)
    (hk : kind ≠ .closes .brace) : c.Passes c.skipItem := by
  refine ⟨rest_ne_nil_of_kind? h, ?_⟩
  cases hr : c.rest with
  | nil => simp [kind?, hr] at h
  | cons t ts =>
    have ht : t.kind = kind := by simpa [kind?, hr] using h
    have hpos : ∃ n, itemLength 0 (t :: ts) = n + 1 := by
      unfold itemLength
      split <;> simp_all
    obtain ⟨n, hn⟩ := hpos
    rw [skipItem, hr, hn, skip_succ]
    exact reaches_skip _ _

end Cursor

end SolidityCompass
