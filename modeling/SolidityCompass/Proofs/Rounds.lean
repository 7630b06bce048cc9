import Mathlib.Data.List.Chain
import SolidityCompass.Proofs.ErasedReadings
import SolidityCompass.Proofs.Progress
import SolidityCompass.Proofs.TopLevel

/-!
# Rounds of a loop

A round of a loop that is not the last one calls the loop again where it has come to, and what the
rest of the loop leaves behind is what the loop leaves behind. Two loops count the brackets that are
open. `groupLengthFrom?` and `scanBodyFrom?` count as a machine does, without a number below zero:
where the counter would have to go there, they have no result.
-/

namespace SolidityCompass

namespace Cursor

variable {c : Cursor}

theorem tupleHeads_snd_of_comma (h : c.kind? = some .comma) :
    c.tupleHeads.2 = c.advance.tupleHeads.2 := by
  rw [tupleHeads]
  split
  next => rfl
  next hk => simp [h] at hk
  next hk _ => exact absurd h hk

theorem tupleHeads_of_head (hcomma : c.kind? ≠ some .comma)
    (hclose : c.kind? ≠ some (.closes .paren)) :
    c.tupleHeads = match c.declarationHead with
      | (none, d) => (none, d)
      | (some v, d) =>
        if d.seesAny separatesHeads then (d.tupleHeads.1.map (v :: ·), d.tupleHeads.2)
        else (none, d) := by
  rw [tupleHeads]
  split
  next hk => exact absurd hk hcomma
  next hk => exact absurd hk hclose
  next => split <;> simp_all

end Cursor

/-- `g` is the next round of the loop `f`. -/
def Reader.repeats : Reader → Reader → Bool
  | .items, .items | .bases, .bases | .contractBody, .contractBody
  | .variableName, .variableName | .functionHeader, .functionHeader
  | .parameters, .parameters | .walk _ _, .walk _ _ | .tupleHeads, .tupleHeads
  | .fields, .fields | .enumMembers, .enumMembers | .arraySuffixes _, .arraySuffixes _ => true
  | _, _ => false

theorem Reader.rank_le (f : Reader) : f.rank ≤ 14 := by
  cases f <;> simp [rank]

theorem Reader.rank_eq_of_repeats {f g : Reader} (h : f.repeats g = true) : f.rank = g.rank := by
  unfold repeats at h
  split at h <;> first | rfl | cases h

namespace Call

open Reading

/-- Calls of a loop by itself end where the loop ends. -/
def Continues (x : Call) (ys : List Call) : Prop :=
  ∀ y ∈ ys, x.reader.repeats y.reader = true → x.exit = y.exit

namespace Continues

variable {x y : Call} {ys zs : List Call}

theorem nil : x.Continues [] := by
  simp [Continues]

theorem other (h : x.reader.repeats y.reader = false) (hs : x.Continues ys) :
    x.Continues (y :: ys) :=
  List.forall_mem_cons.mpr ⟨by simp [h], hs⟩

theorem round (h : x.exit = y.exit) : x.Continues [y] :=
  List.forall_mem_cons.mpr ⟨fun _ => h, by simp⟩

theorem append (h : x.Continues ys) (hs : x.Continues zs) : x.Continues (ys ++ zs) :=
  List.forall_mem_append.mpr ⟨h, hs⟩

/-- A reader that is no loop is not called by itself. -/
theorem of_not_repeats (h : ∀ g, x.reader.repeats g = false) : x.Continues ys := by
  intro y _ hround
  simp [h] at hround

end Continues

variable (r : Reading)

theorem continues_items : Continues ⟨.items, r⟩ (ofItems r) := by
  unfold ofItems
  split
  next => exact .nil
  next hk => exact .other rfl (.round (items_snd hk))

theorem continues_bases : Continues ⟨.bases, r⟩ (ofBases r) := by
  have hexit := congrArg Prod.snd (bases_eq (r := r))
  unfold ofBases
  refine .other rfl ?_
  split
  next => exact .nil
  next base c hc =>
    simp only [hc] at hexit
    change Continues _ (_ ++ if (behindArguments c).sees .comma then
      [⟨.bases, r.goTo (behindArguments c).advance⟩] else [])
    refine .append ?_ ?_
    · split
      next => exact .other rfl .nil
      next => exact .nil
    · split
      next hcomma => exact .round (by rwa [if_pos hcomma] at hexit)
      next => exact .nil

theorem continues_ofParts {α : Type} {part loop : Reader} {name : Block}
    {read : Reading → Option α × Reading}
    {progress : ∀ {r : Reading} {kind : Kind}, r.kind? = some kind → kind ≠ .closes .brace →
      r.Passes (read r).2} (hpart : ∀ r, exit ⟨part, r⟩ = (read r).2)
    (hloop : ∀ r, exit ⟨loop, r⟩ = (r.block name read progress).2)
    (hother : loop.repeats part = false) : Continues ⟨loop, r⟩ (ofParts part loop r) := by
  unfold ofParts
  split
  next => exact .nil
  next kind hk =>
    split
    next => exact .nil
    next hbrace =>
      refine .other hother (.round ?_)
      rw [hloop, hloop, hpart, block_snd hk hbrace]

theorem continues_variableName : Continues ⟨.variableName, r⟩ (ofVariableName r) := by
  have hexit := congrArg Prod.snd (Cursor.variableName_eq (c := r.cursor))
  unfold ofVariableName
  split
  next => exact .nil
  next name c hc =>
    simp only [hc] at hexit
    split
    next => exact .nil
    next hword =>
      simp only [Bool.or_eq_true, Bool.not_eq_true', not_or, Bool.not_eq_true,
        Bool.not_eq_false] at hword
      obtain ⟨hend, hident⟩ := hword
      simp only [hend, show r.cursor.sees .ident = true from hident, if_true] at hexit
      split
      next hparen =>
        simp only [show r.cursor.advance.sees (.opens .paren) = true from hparen, if_true] at hexit
        exact .other rfl (.round (congrArg r.goTo hexit))
      next hparen =>
        simp only [show ¬r.cursor.advance.sees (.opens .paren) = true from hparen] at hexit
        exact .round (congrArg r.goTo hexit)

/-- Which reading the header of a function leaves behind does not depend on what it returns. -/
theorem functionHeader_snd (returns : List Parameter) :
    (r.functionHeader returns).2 = (r.functionHeader []).2 := by
  fun_induction functionHeader returns r with
  | case1 returns r hk => rw [functionHeader_eq, hk]
  | case2 returns r hk =>
    rw [r.functionHeader_eq [], hk]
    rfl
  | case3 returns r hk hreturns _ ih =>
    rw [ih, r.functionHeader_eq [], hk]
    simp only [hreturns, if_true, if_false]
  | case4 returns r kind hk hreturns hparen hend =>
    rw [functionHeader_eq, hk]
    simp only [hreturns, hparen, hend, if_true, if_false]
  | case5 returns r kind hk hreturns hparen hend _ ih =>
    rw [ih, r.functionHeader_eq [], hk]
    simp only [hreturns, hparen, hend, Bool.false_eq_true, if_false]

theorem continues_functionHeader : Continues ⟨.functionHeader, r⟩ (ofFunctionHeader r) := by
  have hexit := congrArg Prod.snd (r.functionHeader_eq [])
  unfold ofFunctionHeader
  split
  next => exact .nil
  next kind hk =>
    simp only [hk] at hexit
    split
    next hreturns =>
      simp only [hreturns, if_true, functionHeader_snd] at hexit
      exact .other rfl (.round hexit)
    next hreturns =>
      split
      next hparen =>
        rw [if_neg hreturns, if_pos hparen] at hexit
        exact .other rfl (.round hexit)
      next hparen =>
        split
        next => exact .nil
        next hend =>
          rw [if_neg hreturns, if_neg hparen, if_neg hend] at hexit
          exact .round hexit

theorem continues_parameters : Continues ⟨.parameters, r⟩ (ofParameters r) := by
  unfold ofParameters
  split
  next => exact .nil
  next hend =>
    simp only [Bool.or_eq_true, not_or, Bool.not_eq_true] at hend
    have hexit := congrArg Prod.snd (parameters_eq hend.1 hend.2)
    refine .other rfl ?_
    split
    next => exact .nil
    next c hc =>
      simp only [hc] at hexit
      exact .round hexit

theorem continues_walk (inner : Nat) (place : Cursor.Place) :
    Continues ⟨.walk inner place, r⟩ (ofWalk inner place r) := by
  unfold ofWalk
  refine .append ?_ ?_
  · split
    next => exact .other rfl .nil
    next => exact .nil
  · split
    next => exact .nil
    next t ts hr =>
      split
      next => exact .nil
      next hopen =>
        have hexit : r.cursor.scanBody inner place = _ := Cursor.scanBody_eq rfl hr
        rw [if_neg hopen] at hexit
        exact .round (by simp only [exit, hexit]; rfl)

theorem continues_tupleHeads : Continues ⟨.tupleHeads, r⟩ (ofTupleHeads r) := by
  unfold ofTupleHeads
  split
  next hk => exact .round (congrArg r.goTo (Cursor.tupleHeads_snd_of_comma hk))
  next => exact .nil
  next hcomma hclose =>
    refine .other rfl ?_
    split
    next => exact .nil
    next v c hc =>
      split
      next hsep =>
        have hexit := congrArg Prod.snd (Cursor.tupleHeads_of_head hcomma hclose)
        simp only [hc, if_pos hsep] at hexit
        exact .round (congrArg r.goTo hexit)
      next => exact .nil

theorem continues_enumMembers : Continues ⟨.enumMembers, r⟩ (ofEnumMembers r) := by
  unfold ofEnumMembers
  split
  next => exact .nil
  next kind hk =>
    have hexit := congrArg Prod.snd (enumMembers_eq hk)
    split
    next hcomma =>
      simp only [hcomma.1, hcomma.2, if_true, if_false] at hexit
      exact .round hexit
    next => exact .nil

theorem continues_arraySuffixes (element : TypeName) :
    Continues ⟨.arraySuffixes element, r⟩ (ofArraySuffixes element r) := by
  have hexit := congrArg Prod.snd (Cursor.arraySuffixes_eq element r.cursor)
  unfold ofArraySuffixes
  split
  next hopen =>
    simp only [show r.cursor.sees (.opens .square) = true from hopen, if_true] at hexit
    split
    next => exact .nil
    next c hc =>
      simp only [hc] at hexit
      exact .round (congrArg r.goTo hexit)
  next => exact .nil

/-- What the rest of a loop leaves behind is what the loop leaves behind. -/
theorem continues_subcalls (x : Call) : x.Continues x.subcalls := by
  obtain ⟨f, r⟩ := x
  cases f with
  | items => exact continues_items r
  | bases => exact continues_bases r
  | contractBody => exact continues_ofParts r (fun _ => rfl) (fun _ => rfl) rfl
  | variableName => exact continues_variableName r
  | functionHeader => exact continues_functionHeader r
  | parameters => exact continues_parameters r
  | walk inner place => exact continues_walk r inner place
  | tupleHeads => exact continues_tupleHeads r
  | fields => exact continues_ofParts r (fun _ => rfl) (fun _ => rfl) rfl
  | enumMembers => exact continues_enumMembers r
  | arraySuffixes element => exact continues_arraySuffixes r element
  | _ => exact .of_not_repeats fun _ => rfl

/-- A round of a loop that is not the last consumes a token. -/
theorem passes_of_repeats {x y : Call} (h : y ∈ x.subcalls)
    (hround : x.reader.repeats y.reader = true) : x.entry.Passes y.entry :=
  (leadsAll_subcalls x y h).descends.resolve_right fun hlt =>
    Nat.ne_of_gt hlt (Reader.rank_eq_of_repeats hround)

def size (x : Call) : Nat :=
  15 * x.entry.cursor.rest.length + x.reader.rank

theorem size_lt_of_mem_subcalls {x y : Call} (h : y ∈ x.subcalls) : y.size < x.size := by
  obtain ⟨hreach, -, hpass | hrank⟩ := leadsAll_subcalls x y h
  · have hlt := hpass.length_lt
    have hbound := y.reader.rank_le
    unfold size
    omega
  · have hle := hreach.length_le
    unfold size
    omega

/-- Calls that follow from each other are no more than what is left to do in the first. -/
theorem length_le_size {x : Call} {calls : List Call}
    (h : (x :: calls).IsChain fun x y => y ∈ x.subcalls) : calls.length ≤ x.size := by
  induction calls generalizing x with
  | nil => exact Nat.zero_le _
  | cons y calls ih =>
    obtain ⟨hy, hcalls⟩ := List.isChain_cons_cons.mp h
    have hsize := size_lt_of_mem_subcalls hy
    have hlength := ih hcalls
    rw [List.length_cons]
    omega

end Call

section counters

def lowered? : Nat → Option Nat
  | 0 => none
  | n + 1 => some n

namespace Cursor

def groupLengthFrom? (shape : Bracket) : Nat → List Token → Option (Nat × Bool)
  | _, [] => some (0, false)
  | depth, t :: ts =>
    if t.kind = .opens shape then
      (groupLengthFrom? shape (depth + 1) ts).map fun tail => (tail.1 + 1, tail.2)
    else if t.kind = .closes shape then
      match lowered? depth with
      | none => none
      | some 0 => some (1, true)
      | some depth => (groupLengthFrom? shape depth ts).map fun tail => (tail.1 + 1, tail.2)
    else (groupLengthFrom? shape depth ts).map fun tail => (tail.1 + 1, tail.2)

/-- Passes over a group with a counter that begins at zero, in front of the bracket that opens the
group. -/
def skipGroup? (c : Cursor) : Option (Bool × Cursor) :=
  match c.kind? with
  | some (.opens shape) =>
    (groupLengthFrom? shape 0 c.rest).map fun group => (group.2, c.skip group.1)
  | _ => some (false, c)

def depthAfter? (depth : Nat) : Kind → Option Nat
  | .opens .brace => some (depth + 1)
  | .closes .brace => lowered? depth
  | _ => some depth

/-- Walks over a body with a counter for the open blocks, the body among them. -/
def scanBodyFrom? (depth : Nat) (place : Place) (c : Cursor) : Option BodyScan :=
  match h : (c.declarationsAt place).2.rest with
  | [] => some ⟨(c.declarationsAt place).1, none, (c.declarationsAt place).2⟩
  | t :: _ =>
    let d := (c.declarationsAt place).2.advance
    have : d.rest.length < c.rest.length :=
      ((c.reaches_declarationsAt place).trans_passes (passes_advance (by simp [h]))).length_lt
    match depthAfter? depth t.kind with
    | none => none
    | some depth =>
      if t.kind = .closes .brace && depth = 0 then
        some ⟨(c.declarationsAt place).1, some t.range.stop, d⟩
      else
        (scanBodyFrom? depth (place.after t) d).map fun tail =>
          { tail with locals := (c.declarationsAt place).1 ++ tail.locals }
termination_by c.rest.length
decreasing_by assumption

theorem groupLengthFrom?_succ (shape : Bracket) (inner : Nat) (tokens : List Token) :
    groupLengthFrom? shape (inner + 1) tokens = some (groupLength shape inner tokens) := by
  induction tokens generalizing inner with
  | nil => rfl
  | cons t ts ih =>
    rw [groupLengthFrom?, groupLength.eq_def]
    dsimp only
    split
    next => rw [ih, Option.map_some]
    next =>
      split
      next =>
        cases inner with
        | zero => rfl
        | succ inner => simp only [lowered?, ih, Option.map_some]
      next => rw [ih, Option.map_some]

/-- The counter of a group is not lowered at zero. -/
theorem skipGroup?_eq_some (c : Cursor) : c.skipGroup? = some c.skipGroup := by
  unfold skipGroup?
  split
  next shape hk =>
    cases hr : c.rest with
    | nil => simp [kind?, hr] at hk
    | cons t ts =>
      have ht : t.kind = .opens shape := by simpa [kind?, hr] using hk
      simp [skipGroup, hk, hr, groupLengthFrom?, ht, groupLengthFrom?_succ]
  next hk =>
    unfold skipGroup
    split
    next shape hopen => exact absurd hopen (hk shape)
    next => rfl

/-- The body itself is counted, and only the brace that ends it takes the counter to zero. -/
theorem depthAfter?_succ (inner : Nat) (kind : Kind) :
    depthAfter? (inner + 1) kind =
      some (if kind = .closes .brace && inner = 0 then 0 else blocksAfter inner kind + 1) := by
  unfold depthAfter? blocksAfter
  split
  next => rfl
  next => cases inner <;> rfl
  next hc => simp [show kind ≠ .closes .brace from hc]

/-- The counter of a body is not lowered at zero. -/
theorem scanBodyFrom?_succ (inner : Nat) (place : Place) (c : Cursor) :
    scanBodyFrom? (inner + 1) place c = some (c.scanBody inner place) := by
  fun_induction scanBody inner place c with
  | case1 inner place c h =>
    rw [scanBodyFrom?]
    split
    next => rfl
    next t ts ht => simp [h] at ht
  | case2 inner place c t ts h d hend =>
    rw [scanBodyFrom?]
    split
    next hnil => simp [h] at hnil
    next t' ts' ht =>
      obtain ⟨rfl, -⟩ := List.cons.inj (h.symm.trans ht)
      rw [depthAfter?_succ, if_pos hend]
      simp only [Bool.and_eq_true] at hend
      simp [hend.1, d]
  | case3 inner place c t ts h d hopen _ tail ih =>
    rw [scanBodyFrom?]
    split
    next hnil => simp [h] at hnil
    next t' ts' ht =>
      obtain ⟨rfl, -⟩ := List.cons.inj (h.symm.trans ht)
      rw [depthAfter?_succ, if_neg hopen]
      simp [ih, d, tail]

end Cursor

end counters

structure Reading.StandsAt (text : String) (p : Nat) (r : Reading) : Prop where
  le : p ≤ (significant text).length
  cursor : r.cursor = (Reading.start text).cursor.skip p

theorem Reading.standsAt_of_reaches {text : String} {r : Reading}
    (h : (Reading.start text).Reaches r) :
    r.StandsAt text ((significant text).length - r.cursor.rest.length) :=
  ⟨Nat.sub_le _ _, by simpa using h.eq_skip⟩

namespace Made

variable {text : String} {x : Call}

theorem reaches_entry (h : Made text x) : (Reading.start text).Reaches x.entry := by
  induction h with
  | first => exact .refl _
  | @sub x y _ hy ih => exact ih.trans (x.leadsAll_subcalls y hy).reaches

theorem ready (h : Made text x) : x.Ready := by
  cases h with
  | first => simp [Call.Ready, Reader.first?]
  | @sub z _ _ hx => exact (z.leadsAll_subcalls x hx).ready

end Made

/-- Reading a text makes progress. Calls do not follow from each other without end. Each call begins
and ends between two tokens of the text, and it ends no earlier than it begins. A round of a loop
that is not the last consumes a token. The counters for open brackets are not lowered at zero. -/
theorem reading_makes_progress (text : String) :
    (∀ calls : List Call,
      (⟨.items, .start text⟩ :: calls).IsChain (fun x y => y ∈ x.subcalls) →
        calls.length < 15 * ((significant text).length + 1)) ∧
    (∀ x, Made text x → x.Ready ∧
      ∃ p q, p ≤ q ∧ x.entry.StandsAt text p ∧ x.exit.StandsAt text q) ∧
    (∀ x y, Made text x → y ∈ x.subcalls → x.reader.repeats y.reader = true →
      x.exit = y.exit ∧ ∃ p q, p < q ∧ x.entry.StandsAt text p ∧ y.entry.StandsAt text q) ∧
    (∀ c : Cursor, c.skipGroup? = some c.skipGroup) ∧
    ∀ (place : Cursor.Place) (c : Cursor), c.scanBodyFrom? 1 place = some (c.scanBody 0 place) := by
  refine ⟨fun calls hcalls => ?_, fun x hx => ?_, fun x y hx hy hround => ?_,
    Cursor.skipGroup?_eq_some, Cursor.scanBodyFrom?_succ 0⟩
  · have hlength := Call.length_le_size hcalls
    simp only [Call.size, Reader.rank, rest_start] at hlength
    omega
  · have hentry := hx.reaches_entry
    have hexit := x.reaches_exit
    have hle := hexit.length_le
    exact ⟨hx.ready, _, _, by omega, Reading.standsAt_of_reaches hentry,
      Reading.standsAt_of_reaches (hentry.trans hexit)⟩
  · have hentry := hx.reaches_entry
    have hpass := Call.passes_of_repeats hy hround
    have hlt := hpass.length_lt
    have hle := hentry.length_le
    rw [rest_start] at hle
    exact ⟨x.continues_subcalls y hy hround, _, _, by omega,
      Reading.standsAt_of_reaches hentry, Reading.standsAt_of_reaches (hentry.trans hpass.reaches)⟩

end SolidityCompass
