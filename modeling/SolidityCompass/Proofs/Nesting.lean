import SolidityCompass.Outline.Declaration

/-!
# Nesting of brackets

`nest` runs over tokens with the stack of brackets that are open, and fails where a bracket
closes another one than the innermost. `Cursor.Inside tail n` places a cursor with it: the tokens
up to `tail` close exactly what is open at the cursor, `n` of it braces. Reading keeps `n`, apart
from the readers that step into a block, and so never runs past the brace at which `tail` begins.
-/

namespace SolidityCompass

def Kind.nest (stack : List Bracket) : Kind → Option (List Bracket)
  | .opens shape => some (shape :: stack)
  | .closes shape =>
    match stack with
    | [] => none
    | top :: below => if top = shape then some below else none
  | _ => some stack

def nest (stack : List Bracket) : List Token → Option (List Bracket)
  | [] => some stack
  | t :: ts => (t.kind.nest stack).bind (fun stack => nest stack ts)

/-- All three shapes of bracket nest properly in the tokens, and none is left open. -/
def Nested (tokens : List Token) : Prop :=
  nest [] tokens = some []

instance (tokens : List Token) : Decidable (Nested tokens) :=
  inferInstanceAs (Decidable (nest [] tokens = some []))

@[simp] theorem nest_nil (stack : List Bracket) : nest stack [] = some stack := rfl

theorem nest_cons (stack : List Bracket) (t : Token) (ts : List Token) :
    nest stack (t :: ts) = (t.kind.nest stack).bind (fun stack => nest stack ts) := rfl

theorem nest_append (stack : List Bracket) (as bs : List Token) :
    nest stack (as ++ bs) = (nest stack as).bind (fun stack => nest stack bs) := by
  induction as generalizing stack with
  | nil => rfl
  | cons t ts ih =>
    rw [List.cons_append, nest_cons, nest_cons, Option.bind_assoc]
    congr 1
    funext stack
    exact ih stack

/-- The possible effects of a token on the open brackets. -/
theorem Kind.nest_cases {kind : Kind} {stack stack' : List Bracket}
    (h : kind.nest stack = some stack') :
    (∃ shape, kind = .opens shape ∧ stack' = shape :: stack) ∨
    (∃ shape, kind = .closes shape ∧ stack = shape :: stack') ∨
    ((∀ shape, kind ≠ .opens shape) ∧ (∀ shape, kind ≠ .closes shape) ∧ stack' = stack) := by
  cases kind with
  | opens shape => exact Or.inl ⟨shape, rfl, (Option.some.inj h).symm⟩
  | closes shape =>
    cases stack with
    | nil => simp [Kind.nest] at h
    | cons top below =>
      simp only [Kind.nest, Option.ite_none_right_eq_some, Option.some.injEq] at h
      exact Or.inr (Or.inl ⟨shape, rfl, by rw [h.1, h.2]⟩)
  | _ => exact Or.inr (Or.inr ⟨by simp, by simp, (Option.some.inj h).symm⟩)

/-- A bracket that is open has its closing bracket: what stands before that one nests, and what
stands behind it closes the brackets further out. -/
theorem exists_closing_of_nest {inner : List Bracket} {shape : Bracket} {outer : List Bracket}
    {tokens : List Token} (h : nest (inner ++ shape :: outer) tokens = some []) :
    ∃ body close post, tokens = body ++ close :: post ∧ nest inner body = some [] ∧
      close.kind = .closes shape ∧ nest outer post = some [] := by
  induction tokens generalizing inner with
  | nil => simp at h
  | cons t ts ih =>
    rw [nest_cons] at h
    obtain ⟨stack, hstack, hts⟩ := Option.bind_eq_some_iff.mp h
    -- Only a closing bracket that meets an empty `inner` is the one looked for.
    have hstep : ∀ inner', t.kind.nest inner = some inner' → stack = inner' ++ shape :: outer →
        ∃ body close post, t :: ts = body ++ close :: post ∧ nest inner body = some [] ∧
          close.kind = .closes shape ∧ nest outer post = some [] := by
      rintro inner' hinner rfl
      obtain ⟨body, close, post, rfl, hbody, hclose, hpost⟩ := ih hts
      exact ⟨t :: body, close, post, rfl, by rw [nest_cons, hinner]; exact hbody, hclose, hpost⟩
    rcases Kind.nest_cases hstack with ⟨b, hk, rfl⟩ | ⟨b, hk, hs⟩ | ⟨ho, hc, rfl⟩
    · exact hstep (b :: inner) (by rw [hk]; rfl) rfl
    · cases inner with
      | nil =>
        obtain ⟨rfl, rfl⟩ := List.cons.inj hs
        exact ⟨[], t, ts, rfl, rfl, hk, hts⟩
      | cons top below =>
        obtain ⟨rfl, rfl⟩ := List.cons.inj hs
        exact hstep below (by simp [hk, Kind.nest]) rfl
    · refine hstep inner ?_ rfl
      cases hk : t.kind with
      | opens b => exact absurd hk (ho b)
      | closes b => exact absurd hk (hc b)
      | _ => rfl

namespace Cursor

/-- The tokens at the cursor reach up to `tail` and close on the way exactly the brackets that are
open around the cursor, `blocks` of which are braces. -/
def Inside (tail : List Token) (blocks : Nat) (c : Cursor) : Prop :=
  ∃ stack ahead, c.rest = ahead ++ tail ∧ nest stack ahead = some [] ∧
    stack.count .brace = blocks

def Fenced (tail : List Token) : Prop :=
  ∃ close post, tail = close :: post ∧ close.kind = .closes .brace

def isBoundary : Kind → Bool
  | .closes .brace | .keyword .abstractKw | .keyword .contractKw | .keyword .libraryKw
  | .keyword .interfaceKw => true
  | _ => false

def Bounded (tail : List Token) : Prop :=
  ∃ t post, tail = t :: post ∧ isBoundary t.kind = true

theorem Fenced.bounded {tail : List Token} (h : Fenced tail) : Bounded tail := by
  obtain ⟨close, post, rfl, hclose⟩ := h
  exact ⟨close, post, rfl, by simp [hclose, isBoundary]⟩

section inside

variable {tail : List Token} {n : Nat} {c d : Cursor}

theorem inside_tail (h : c.rest = tail) : c.Inside tail 0 :=
  ⟨[], [], by simpa using h, rfl, rfl⟩

theorem inside_of_nested {body : List Token} (h : c.rest = body ++ tail) (hbody : Nested body) :
    c.Inside tail 0 :=
  ⟨[], body, h, hbody, rfl⟩

/-- A cursor between open braces has not reached the tail. -/
theorem Inside.eq_zero_of_rest_eq (h : c.Inside tail n) (hr : c.rest = tail) : n = 0 := by
  obtain ⟨stack, ahead, hr', hn, rfl⟩ := h
  obtain rfl : ahead = [] := by simpa [hr] using hr'
  obtain rfl : stack = [] := by simpa using hn
  rfl

theorem count_brace_of_nest {kind : Kind} {stack stack' : List Bracket}
    (h : kind.nest stack = some stack') :
    stack'.count .brace = blocksAfter (stack.count .brace) kind ∧
      (kind = .closes .brace → 0 < stack.count .brace) := by
  rcases Kind.nest_cases h with ⟨b, rfl, rfl⟩ | ⟨b, rfl, rfl⟩ | ⟨ho, hc, rfl⟩
  · cases b <;> simp [blocksAfter]
  · cases b <;> simp [blocksAfter]
  · cases kind with
    | opens b => exact absurd rfl (ho b)
    | closes b => exact absurd rfl (hc b)
    | _ => simp [blocksAfter]

/-- One token further, unless the cursor has reached the tail. -/
theorem Inside.advance_of_rest_ne {kind : Kind} (h : c.Inside tail n) (hk : c.kind? = some kind)
    (hne : c.rest ≠ tail) :
    c.advance.Inside tail (blocksAfter n kind) ∧ (kind = .closes .brace → 0 < n) := by
  obtain ⟨stack, ahead, hr, hn, rfl⟩ := h
  cases ahead with
  | nil => exact absurd hr hne
  | cons t ts =>
    obtain rfl : t.kind = kind := by simpa [kind?, hr] using hk
    rw [nest_cons] at hn
    obtain ⟨stack', hstack, hts⟩ := Option.bind_eq_some_iff.mp hn
    obtain ⟨hcount, hpos⟩ := count_brace_of_nest hstack
    exact ⟨⟨stack', ts, by simp [hr], hts, hcount⟩, hpos⟩

theorem Fenced.rest_ne {kind : Kind} (hfence : Fenced tail) (hk : c.kind? = some kind)
    (hc : kind ≠ .closes .brace) : c.rest ≠ tail := by
  rintro rfl
  obtain ⟨close, post, hr, hclose⟩ := hfence
  simp only [kind?, hr, List.head?_cons, Option.map_some, hclose, Option.some.injEq] at hk
  exact hc hk.symm

theorem Bounded.rest_ne {kind : Kind} (hbound : Bounded tail) (hk : c.kind? = some kind)
    (hc : isBoundary kind = false) : c.rest ≠ tail := by
  rintro rfl
  obtain ⟨t, post, hr, ht⟩ := hbound
  simp only [kind?, hr, List.head?_cons, Option.map_some, Option.some.injEq] at hk
  simp [hk, hc] at ht

theorem blocksAfter_of_ne {kind : Kind} (ho : kind ≠ .opens .brace) (hc : kind ≠ .closes .brace) :
    blocksAfter n kind = n := by
  unfold blocksAfter
  split <;> simp_all

theorem Inside.advance {kind : Kind} (h : c.Inside tail n) (hk : c.kind? = some kind)
    (hne : c.rest ≠ tail) (ho : kind ≠ .opens .brace) (hc : kind ≠ .closes .brace) :
    c.advance.Inside tail n := by
  have hstep := (h.advance_of_rest_ne hk hne).1
  rwa [blocksAfter_of_ne ho hc] at hstep

def Braceless (tokens : List Token) : Prop :=
  ∀ t ∈ tokens, t.kind ≠ .opens .brace ∧ t.kind ≠ .closes .brace

theorem Inside.skip (h : c.Inside tail n) (hfence : Fenced tail) {m : Nat}
    (hm : Braceless (c.rest.take m)) : (c.skip m).Inside tail n := by
  induction m generalizing c with
  | zero => exact h
  | succ m ih =>
    rw [skip_succ]
    cases hr : c.rest with
    | nil =>
      have hstay : c.advance = c := by simp [Cursor.advance, hr]
      exact ih (hstay.symm ▸ h) (by simp [hr, Braceless])
    | cons t ts =>
      rw [hr, List.take_succ_cons] at hm
      have ht := hm t List.mem_cons_self
      have hk : c.kind? = some t.kind := by simp [kind?, hr]
      refine ih (h.advance hk (hfence.rest_ne hk ht.2) ht.1 ht.2) ?_
      intro u hu
      rw [rest_advance, hr, List.tail_cons] at hu
      exact hm u (List.mem_cons_of_mem _ hu)

theorem braceless_takeWhile {p : Token → Bool} {tokens : List Token}
    (hp : ∀ t, p t = true → t.kind ≠ .opens .brace ∧ t.kind ≠ .closes .brace) :
    Braceless (tokens.take (tokens.takeWhile p).length) := by
  intro t ht
  rw [← List.prefix_iff_eq_take.mp (List.takeWhile_prefix p)] at ht
  exact hp t (List.all_eq_true.mp List.all_takeWhile t ht)

/-- A cursor at an opening bracket that is not the tail: the group nests, and behind it the cursor
stands as deep as before it. -/
theorem Inside.group {shape : Bracket} (h : c.Inside tail n) (hk : c.kind? = some (.opens shape))
    (hne : c.rest ≠ tail) :
    ∃ body close post, c.advance.rest = body ++ close :: post ∧ Nested body ∧
      close.kind = .closes shape ∧ ∀ d : Cursor, d.rest = post → d.Inside tail n := by
  obtain ⟨stack, ahead, hr, hn, rfl⟩ := h
  cases ahead with
  | nil => exact absurd hr hne
  | cons t ts =>
    have ht : t.kind = .opens shape := by simpa [kind?, hr] using hk
    have hopen : nest ([] ++ shape :: stack) ts = some [] := by
      simpa [nest_cons, ht, Kind.nest] using hn
    obtain ⟨body, close, post, rfl, hbody, hclose, hpost⟩ := exists_closing_of_nest hopen
    refine ⟨body, close, post ++ tail, by simp [hr], hbody, hclose, ?_⟩
    intro d hd
    exact ⟨stack, post, hd, hpost, rfl⟩

theorem groupLength_of_nest {shape : Bracket} {inner : List Bracket} {body : List Token}
    {close : Token} (post : List Token) (h : nest inner body = some [])
    (hclose : close.kind = .closes shape) :
    groupLength shape (inner.count shape) (body ++ close :: post) = (body.length + 1, true) := by
  induction body generalizing inner with
  | nil =>
    obtain rfl : inner = [] := by simpa using h
    simp [groupLength, hclose]
  | cons t ts ih =>
    rw [nest_cons] at h
    obtain ⟨stack, hstack, hts⟩ := Option.bind_eq_some_iff.mp h
    have htail := ih hts
    rw [List.cons_append, groupLength.eq_def]
    dsimp only
    rcases Kind.nest_cases hstack with ⟨b, hk, rfl⟩ | ⟨b, hk, rfl⟩ | ⟨ho, hc, rfl⟩
    · by_cases hb : b = shape
      · subst hb
        rw [List.count_cons_self] at htail
        simp [hk, htail]
      · rw [List.count_cons_of_ne hb] at htail
        simp [hk, hb, htail]
    · by_cases hb : b = shape
      · subst hb
        simp [hk, htail]
      · rw [List.count_cons_of_ne hb]
        simp [hk, hb, htail]
    · simp [ho shape, hc shape, htail]

theorem skipGroup_of_nested {shape : Bracket} {body post : List Token} {close : Token}
    (hk : c.kind? = some (.opens shape)) (hr : c.advance.rest = body ++ close :: post)
    (hbody : Nested body) (hclose : close.kind = .closes shape) :
    c.skipGroup.1 = true ∧ c.skipGroup.2.rest = post := by
  rw [rest_advance] at hr
  have hlen := groupLength_of_nest post hbody hclose
  rw [List.count_nil] at hlen
  simp only [skipGroup, hk, hr, hlen, rest_skip, true_and]
  rw [← List.drop_tail, hr]
  simp

theorem Inside.skipGroup (h : c.Inside tail n) (hbound : Bounded tail) :
    c.skipGroup.2.Inside tail n := by
  cases hk : c.kind? with
  | none => simpa only [Cursor.skipGroup, hk] using h
  | some kind =>
    cases kind with
    | opens shape =>
      obtain ⟨body, close, post, hr, hbody, hclose, hafter⟩ :=
        h.group hk (hbound.rest_ne hk rfl)
      exact hafter _ (skipGroup_of_nested hk hr hbody hclose).2
    | _ => simpa only [Cursor.skipGroup, hk] using h

def EndsItem (tokens : List Token) : Prop :=
  ∃ front last, tokens = front ++ [last] ∧
    (last.kind = .semicolon ∨ last.kind = .closes .brace)

theorem EndsItem.cons {tokens : List Token} (h : EndsItem tokens) (t : Token) :
    EndsItem (t :: tokens) := by
  obtain ⟨front, last, rfl, hlast⟩ := h
  exact ⟨t :: front, last, rfl, hlast⟩

theorem EndsItem.of_cons {t : Token} {tokens : List Token} (h : EndsItem (t :: tokens))
    (hne : tokens ≠ []) : EndsItem tokens := by
  obtain ⟨front, last, hf, hlast⟩ := h
  cases front with
  | nil => simp_all
  | cons u front =>
    obtain ⟨rfl, rfl⟩ := List.cons.inj hf
    exact ⟨front, last, rfl, hlast⟩

/-- How an item of `length` tokens ends that is skipped in front of `tail`: among the tokens
`ahead`, behind a `;` or a block of its own or before a brace of the `blocks` around it; or at
their end, none of these being last, and then it runs on into `tail`. -/
inductive ItemStop (tail : List Token) (blocks : Nat) (ahead : List Token) (length : Nat) : Prop
  | within (item left : List Token) (stack : List Bracket) (split : ahead = item ++ left)
      (length_eq : length = item.length) (nests : nest stack left = some [])
      (braces : stack.count .brace = blocks)
      (ends : EndsItem item ∨ ∃ t ts, left = t :: ts ∧ t.kind = .closes .brace)
  | beyond (length_eq : length = ahead.length + itemLength 0 tail) (none_open : blocks = 0)
      (not_ends : ¬ EndsItem ahead)

theorem ItemStop.cons {blocks length : Nat} {t : Token} {ts : List Token}
    (h : ItemStop tail blocks ts length)
    (ht : ts = [] → ¬ (t.kind = .semicolon ∨ t.kind = .closes .brace)) :
    ItemStop tail blocks (t :: ts) (length + 1) := by
  cases h with
  | within item left stack split length_eq nests braces ends =>
    exact .within (t :: item) left stack (by simp [split]) (by simp [length_eq]) nests braces
      (ends.imp_left (EndsItem.cons · t))
  | beyond length_eq none_open not_ends =>
    refine .beyond (by simp [length_eq]; omega) none_open fun hends => ?_
    by_cases hnil : ts = []
    · subst hnil
      obtain ⟨front, last, hf, hlast⟩ := hends
      have hsplit : [] ++ [t] = front ++ [last] := hf
      obtain ⟨rfl, hsame⟩ := List.append_inj' hsplit rfl
      obtain rfl : t = last := by simpa using hsame
      exact ht rfl hlast
    · exact not_ends (hends.of_cons hnil)

/-- Skipping an item among tokens that nest, where the item has opened `inner` so far. -/
theorem itemStop_of_nest (inner : List Bracket) {outer : List Bracket} {ahead : List Token}
    (h : nest (inner ++ outer) ahead = some []) :
    ItemStop tail (outer.count .brace) ahead (itemLength inner.length (ahead ++ tail)) := by
  induction ahead generalizing inner outer with
  | nil =>
    obtain ⟨rfl, rfl⟩ : inner = [] ∧ outer = [] := by simpa using h
    refine .beyond (by simp) rfl ?_
    rintro ⟨front, last, hf, _⟩
    simp at hf
  | cons t ts ih =>
    rw [nest_cons] at h
    obtain ⟨stack, hstack, hts⟩ := Option.bind_eq_some_iff.mp h
    -- At the end of the tokens nothing is open.
    have hopen : stack ≠ [] → ts = [] → ¬ (t.kind = .semicolon ∨ t.kind = .closes .brace) := by
      rintro hne rfl
      exact absurd (by simpa using hts) hne
    rw [List.cons_append, itemLength.eq_def]
    rcases Kind.nest_cases hstack with ⟨b, hk, rfl⟩ | ⟨b, hk, hs⟩ | ⟨ho, hc, rfl⟩
    · have hgo := (ih (b :: inner) hts).cons (hopen (by simp))
      simpa [hk] using hgo
    · have hround : b ≠ .brace → ts = [] → ¬ (t.kind = .semicolon ∨ t.kind = .closes .brace) := by
        intro hb _
        simp [hk, hb]
      cases inner with
      | nil =>
        obtain rfl : outer = b :: stack := hs
        by_cases hb : b = .brace
        · subst hb
          exact .within [] (t :: ts) (.brace :: stack) rfl (by simp [hk])
            h rfl (Or.inr ⟨t, ts, rfl, hk⟩)
        · have hgo := (ih [] hts).cons (hround hb)
          rw [List.count_cons_of_ne hb]
          cases b <;> simp_all
      | cons top below =>
        obtain ⟨rfl, rfl⟩ := List.cons.inj hs
        by_cases hb : top = .brace
        · subst hb
          cases below with
          | nil =>
            exact .within [t] ts outer rfl (by simp [hk]) hts rfl
              (Or.inl ⟨[], t, rfl, Or.inr hk⟩)
          | cons next rest =>
            have hgo := (ih (next :: rest) hts).cons (hopen (by simp))
            simpa [hk] using hgo
        · have hgo := (ih below hts).cons (hround hb)
          cases top <;> simp_all
    · by_cases hsemi : t.kind = .semicolon
      · cases inner with
        | nil =>
          exact .within [t] ts outer rfl (by simp [hsemi]) hts rfl
            (Or.inl ⟨[], t, rfl, Or.inl hsemi⟩)
        | cons top below =>
          have hgo := (ih (top :: below) hts).cons (hopen (by simp))
          simpa [hsemi] using hgo
      · have hgo := (ih inner hts).cons (t := t) (by simp [hsemi, hc])
        cases hk : t.kind with
        | opens b => exact absurd hk (ho b)
        | closes b => exact absurd hk (hc b)
        | semicolon => exact absurd hk hsemi
        | _ => simpa [hk] using hgo

theorem Inside.itemStop (h : c.Inside tail n) :
    ∃ ahead, c.rest = ahead ++ tail ∧ ItemStop tail n ahead (itemLength 0 c.rest) := by
  obtain ⟨stack, ahead, hr, hn, rfl⟩ := h
  refine ⟨ahead, hr, ?_⟩
  rw [hr]
  exact itemStop_of_nest [] hn

theorem Inside.skipItem (h : c.Inside tail n) (hfence : Fenced tail) :
    c.skipItem.Inside tail n := by
  obtain ⟨ahead, hr, hstop⟩ := h.itemStop
  cases hstop with
  | within item left stack split length_eq nests braces _ =>
    refine ⟨stack, left, ?_, nests, braces⟩
    rw [Cursor.skipItem, length_eq, rest_skip, hr, split]
    simp
  | beyond length_eq none_open _ =>
    obtain ⟨close, post, rfl, hclose⟩ := hfence
    have hstays : itemLength 0 (close :: post) = 0 := by simp [itemLength, hclose]
    rw [none_open]
    apply inside_tail
    rw [Cursor.skipItem, length_eq, rest_skip, hr, hstays]
    simp

end inside

end Cursor

end SolidityCompass
