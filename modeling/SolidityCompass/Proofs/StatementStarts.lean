import SolidityCompass.Proofs.DeclarationGrammar
import SolidityCompass.Proofs.OutlineRanges

/-!
# Declarations at the starts of statements

`StartsStatement` tells by the tokens in front of a place whether a statement starts there. The walk
over a body remembers of these tokens only a `Place`. It reads a declaration at every start where
one stands, and never looks for another one inside of it. So the locals of a body are the variables
of exactly these declarations.
-/

namespace SolidityCompass

section places

def EndsWithFor (before : List Token) : Prop :=
  ∃ t ∈ before.getLast?, t.kind = .keyword .forKw

/-- A statement starts behind these tokens: the last of them is a brace, a semicolon, `else` or
`do`, or a parenthesis directly behind `for`. -/
def StartsStatement (before : List Token) : Prop :=
  ∃ t ∈ before.getLast?,
    t.kind = .opens .brace ∨ t.kind = .closes .brace ∨ t.kind = .semicolon ∨
      (t.kind = .ident ∧ (t.text = "else" ∨ t.text = "do")) ∨
      (t.kind = .opens .paren ∧ EndsWithFor before.dropLast)

structure Cursor.Place.Fits (place : Cursor.Place) (before : List Token) : Prop where
  fresh : place = .fresh ↔ StartsStatement before
  afterFor : place = .afterFor ↔ EndsWithFor before

variable {before : List Token} {t : Token}

theorem endsWithFor_concat : EndsWithFor (before ++ [t]) ↔ t.kind = .keyword .forKw := by
  simp [EndsWithFor]

theorem startsStatement_concat :
    StartsStatement (before ++ [t]) ↔
      t.kind = .opens .brace ∨ t.kind = .closes .brace ∨ t.kind = .semicolon ∨
        (t.kind = .ident ∧ (t.text = "else" ∨ t.text = "do")) ∨
        (t.kind = .opens .paren ∧ EndsWithFor before) := by
  simp [StartsStatement]

theorem Cursor.Place.after_eq_fresh_iff {place : Cursor.Place} :
    place.after t = .fresh ↔
      t.kind = .opens .brace ∨ t.kind = .closes .brace ∨ t.kind = .semicolon ∨
        (t.kind = .ident ∧ (t.text = "else" ∨ t.text = "do")) ∨
        (t.kind = .opens .paren ∧ place = .afterFor) := by
  unfold Cursor.Place.after
  cases hk : t.kind with
  | opens shape => cases shape <;> simp
  | closes shape => cases shape <;> simp
  | keyword word => cases word <;> simp
  | ident =>
    by_cases hword : t.text = "else" ∨ t.text = "do"
    · simp [hword]
    · simp [hword]
  | _ => simp

theorem Cursor.Place.after_eq_afterFor_iff {place : Cursor.Place} :
    place.after t = .afterFor ↔ t.kind = .keyword .forKw := by
  unfold Cursor.Place.after
  cases hk : t.kind with
  | opens shape =>
    cases shape with
    | paren => cases place <;> simp
    | _ => simp
  | closes shape => cases shape <;> simp
  | keyword word => cases word <;> simp
  | ident => by_cases hword : t.text = "else" ∨ t.text = "do" <;> simp [hword]
  | _ => simp

/-- The next place depends on the one before it in front of a parenthesis only. -/
theorem Cursor.Place.fits_after {place : Cursor.Place}
    (h : t.kind = .opens .paren → place.Fits before) : (place.after t).Fits (before ++ [t]) := by
  constructor
  · rw [after_eq_fresh_iff, startsStatement_concat]
    have hparen : t.kind = .opens .paren ∧ place = .afterFor ↔
        t.kind = .opens .paren ∧ EndsWithFor before :=
      and_congr_right fun hk => (h hk).afterFor
    rw [hparen]
  · rw [after_eq_afterFor_iff, endsWithFor_concat]

theorem Cursor.Place.fits_fresh_of_brace (h : t.kind = .opens .brace) :
    Cursor.Place.fresh.Fits (before ++ [t]) := by
  have hafter : Cursor.Place.inside.after t = .fresh := by simp [Cursor.Place.after, h]
  rw [← hafter]
  exact Cursor.Place.fits_after fun hparen => by simp [h] at hparen

end places

namespace Cursor

section walk

@[ext] structure Site where
  start : Nat
  stop : Nat
  declared : List LocalVariable
deriving Repr, DecidableEq

/-- Among the tokens from `first` up to `last`, a statement starts at token `i`, which stands inside
none of the declarations recognised already. -/
structure IsStart (c : Cursor) (first last : Nat) (sites : List Site) (i : Nat) : Prop where
  first_le : first ≤ i
  lt_last : i < last
  outside : ∀ s ∈ sites, ¬ (s.start < i ∧ i < s.stop)
  starts : StartsStatement (c.rest.take i)

/-- The sites, in order, are all declarations that begin at a start of a statement among the tokens
from `first` up to `last`. -/
structure Recognises (c : Cursor) (first last : Nat) (sites : List Site) : Prop where
  first_le_last : first ≤ last
  declares : ∀ s ∈ sites, s.start < s.stop ∧ s.stop ≤ last ∧
    (c.skip s.start).Declaration s.declared (c.skip s.stop)
  ordered : sites.Pairwise fun s t => s.stop ≤ t.start
  starts_iff : ∀ i, (∃ s ∈ sites, s.start = i) ↔
    c.IsStart first last sites i ∧ ∃ vs d, (c.skip i).Declaration vs d

variable {c : Cursor} {first mid last i j : Nat} {vs : List LocalVariable} {xs ys : List Site}

theorem recognises_nil (c : Cursor) (i : Nat) : c.Recognises i i [] where
  first_le_last := Nat.le_refl i
  declares := by simp
  ordered := List.Pairwise.nil
  starts_iff k := by
    refine ⟨by simp, ?_⟩
    rintro ⟨hstart, -⟩
    exact absurd (hstart.first_le.trans_lt hstart.lt_last) (Nat.lt_irrefl i)

/-- A token at which no statement starts with a declaration. -/
theorem recognises_token
    (h : StartsStatement (c.rest.take i) → ∀ vs d, ¬ (c.skip i).Declaration vs d) :
    c.Recognises i (i + 1) [] where
  first_le_last := Nat.le_succ i
  declares := by simp
  ordered := List.Pairwise.nil
  starts_iff k := by
    refine ⟨by simp, ?_⟩
    rintro ⟨hstart, vs, d, hd⟩
    obtain rfl : k = i := Nat.le_antisymm (Nat.le_of_lt_succ hstart.lt_last) hstart.first_le
    exact absurd hd (h hstart.starts vs d)

theorem recognises_site (hstart : StartsStatement (c.rest.take i)) (hij : i < j)
    (h : (c.skip i).Declaration vs (c.skip j)) : c.Recognises i j [⟨i, j, vs⟩] where
  first_le_last := hij.le
  declares := by simpa using ⟨hij, h⟩
  ordered := List.pairwise_singleton _ _
  starts_iff k := by
    simp only [List.mem_singleton, exists_eq_left]
    constructor
    · rintro rfl
      exact ⟨⟨Nat.le_refl i, hij, by simp, hstart⟩, vs, _, h⟩
    · rintro ⟨hk, -⟩
      have hout := hk.outside _ List.mem_cons_self
      have hle := hk.first_le
      have hlt := hk.lt_last
      simp only at hout
      omega

theorem Recognises.first_le (h : c.Recognises first last xs) {s : Site} (hs : s ∈ xs) :
    first ≤ s.start :=
  ((h.starts_iff s.start).mp ⟨s, hs, rfl⟩).1.first_le

/-- Sites that begin behind a token do not count for the starts in front of it. -/
theorem isStart_append_left (hi : i < mid) (hmid : mid ≤ last) (hys : ∀ s ∈ ys, mid ≤ s.start) :
    c.IsStart first last (xs ++ ys) i ↔ c.IsStart first mid xs i := by
  constructor
  · intro h
    exact ⟨h.first_le, hi, fun s hs => h.outside s (List.mem_append_left ys hs), h.starts⟩
  · intro h
    refine ⟨h.first_le, hi.trans_le hmid, fun s hs => ?_, h.starts⟩
    rcases List.mem_append.mp hs with hs | hs
    · exact h.outside s hs
    · have hge := hys s hs
      omega

/-- Sites that end in front of a token do not count for the starts from there on. -/
theorem isStart_append_right (hi : mid ≤ i) (hmid : first ≤ mid) (hxs : ∀ s ∈ xs, s.stop ≤ mid) :
    c.IsStart first last (xs ++ ys) i ↔ c.IsStart mid last ys i := by
  constructor
  · intro h
    exact ⟨hi, h.lt_last, fun s hs => h.outside s (List.mem_append_right xs hs), h.starts⟩
  · intro h
    refine ⟨hmid.trans hi, h.lt_last, fun s hs => ?_, h.starts⟩
    rcases List.mem_append.mp hs with hs | hs
    · have hle := hxs s hs
      omega
    · exact h.outside s hs

theorem Recognises.append (h : c.Recognises first mid xs) (h' : c.Recognises mid last ys) :
    c.Recognises first last (xs ++ ys) := by
  have hxs : ∀ s ∈ xs, s.start < mid ∧ s.stop ≤ mid := fun s hs =>
    ⟨(h.declares s hs).1.trans_le (h.declares s hs).2.1, (h.declares s hs).2.1⟩
  have hys : ∀ s ∈ ys, mid ≤ s.start := fun s hs => h'.first_le hs
  refine ⟨h.first_le_last.trans h'.first_le_last, ?_, ?_, fun i => ?_⟩
  · intro s hs
    rcases List.mem_append.mp hs with hs | hs
    · obtain ⟨hlt, hle, hd⟩ := h.declares s hs
      exact ⟨hlt, hle.trans h'.first_le_last, hd⟩
    · exact h'.declares s hs
  · refine List.pairwise_append.mpr ⟨h.ordered, h'.ordered, ?_⟩
    intro s hs t ht
    exact (hxs s hs).2.trans (hys t ht)
  · by_cases hi : i < mid
    · rw [isStart_append_left hi h'.first_le_last hys, ← h.starts_iff]
      constructor
      · rintro ⟨s, hs, rfl⟩
        rcases List.mem_append.mp hs with hs | hs
        · exact ⟨s, hs, rfl⟩
        · exact absurd hi (hys s hs).not_gt
      · rintro ⟨s, hs, rfl⟩
        exact ⟨s, List.mem_append_left ys hs, rfl⟩
    · have hi := Nat.le_of_not_lt hi
      rw [isStart_append_right hi h.first_le_last fun s hs => (hxs s hs).2, ← h'.starts_iff]
      constructor
      · rintro ⟨s, hs, rfl⟩
        rcases List.mem_append.mp hs with hs | hs
        · exact absurd (hxs s hs).1 hi.not_gt
        · exact ⟨s, hs, rfl⟩
      · rintro ⟨s, hs, rfl⟩
        exact ⟨s, List.mem_append_right xs hs, rfl⟩

theorem Recognises.stop_lt (h : c.Recognises first last xs) {s : Site} (hs : s ∈ xs) :
    s.stop < c.rest.length := by
  have hne : (c.skip s.stop).rest ≠ [] := by
    rcases (h.declares s hs).2.2.kind?_stop with hk | hk
    · exact rest_ne_nil_of_kind? hk
    · exact rest_ne_nil_of_kind? hk
  by_contra hle
  exact hne (by rw [rest_skip, List.drop_eq_nil_of_le (Nat.le_of_not_lt hle)])

/-- A site is known by where it starts. -/
theorem Recognises.site_eq (h : c.Recognises first last xs) (h' : c.Recognises first last ys)
    {s t : Site} (hs : s ∈ xs) (ht : t ∈ ys) (hstart : s.start = t.start) : s = t := by
  have hread := declarations?_eq_some_iff.mpr (h.declares s hs).2.2
  rw [hstart, declarations?_eq_some_iff.mpr (h'.declares t ht).2.2, Option.some.injEq,
    Prod.mk.injEq] at hread
  have hlength := congrArg (fun d => d.rest.length) hread.2
  simp only [rest_skip, List.length_drop] at hlength
  have hlt := h.stop_lt hs
  have hlt' := h'.stop_lt ht
  exact Site.ext hstart (by omega) hread.1.symm

/-- The starts of two rows of sites agree, since a token stands inside a site only if the site
starts before it. -/
theorem Recognises.starts_imp (h : c.Recognises first last xs) (h' : c.Recognises first last ys)
    {i : Nat} (hi : ∃ s ∈ xs, s.start = i) : ∃ t ∈ ys, t.start = i := by
  induction i using Nat.strongRecOn generalizing xs ys with
  | _ i ih =>
    obtain ⟨hstart, hd⟩ := (h.starts_iff i).mp hi
    refine (h'.starts_iff i).mpr ⟨⟨hstart.first_le, hstart.lt_last, ?_, hstart.starts⟩, hd⟩
    rintro t ht ⟨hlt, hgt⟩
    obtain ⟨s, hs, heq⟩ := ih t.start hlt h' h ⟨t, ht, rfl⟩
    obtain rfl := h.site_eq h' hs ht heq
    exact hstart.outside s hs ⟨hlt, hgt⟩

theorem Recognises.mem_of_mem (h : c.Recognises first last xs) (h' : c.Recognises first last ys)
    {s : Site} (hs : s ∈ xs) : s ∈ ys := by
  obtain ⟨t, ht, heq⟩ := h.starts_imp h' ⟨s, hs, rfl⟩
  rwa [h.site_eq h' hs ht heq.symm]

theorem Recognises.pairwise_lt (h : c.Recognises first last xs) :
    xs.Pairwise fun s t => s.start < t.start :=
  h.ordered.imp_of_mem fun hs _ hle => (h.declares _ hs).1.trans_le hle

/-- There is only one way to recognise the declarations among some tokens. -/
theorem Recognises.unique (h : c.Recognises first last xs) (h' : c.Recognises first last ys) :
    xs = ys := by
  have hnodup {zs : List Site} (hz : c.Recognises first last zs) : zs.Nodup :=
    hz.pairwise_lt.imp fun hlt heq => absurd (heq ▸ hlt) (Nat.lt_irrefl _)
  have hperm : xs.Perm ys := (List.perm_ext_iff_of_nodup (hnodup h) (hnodup h')).mpr
    fun s => ⟨h.mem_of_mem h', h'.mem_of_mem h⟩
  exact hperm.eq_of_pairwise (fun s t _ _ hst hts => absurd hst hts.not_gt) h.pairwise_lt
    h'.pairwise_lt

theorem Recognises.range_lt (h : c.Recognises first last xs) {text : String} (hc : c.In text)
    {v : LocalVariable} (hv : v ∈ xs.flatMap Site.declared) : v.range.start < v.range.stop := by
  obtain ⟨s, hs, hv⟩ := List.mem_flatMap.mp hv
  obtain ⟨a, b, ha, hhead⟩ := (h.declares s hs).2.2.exists_head hv
  exact hhead.range_lt (hc.reaches ((c.reaches_skip s.start).trans ha))

theorem advance_skip (c : Cursor) (i : Nat) : (c.skip i).advance = c.skip (i + 1) :=
  c.skip_skip i 1

/-- The token at which a cursor stands is the next one of the tokens passed so far. -/
theorem token_of_rest_skip {t : Token} {ts : List Token} (h : (c.skip i).rest = t :: ts) :
    c.rest[i]? = some t ∧ c.rest.take (i + 1) = c.rest.take i ++ [t] ∧ i < c.rest.length := by
  rw [rest_skip] at h
  have hget : c.rest[i]? = some t := by
    rw [← List.head?_drop, h]
    rfl
  refine ⟨hget, ?_, (List.getElem?_eq_some_iff.mp hget).1⟩
  rw [List.take_add_one, hget]
  rfl

/-- What the walk finds at a place, and why at the token behind it no declaration begins. -/
theorem exists_recognises_declarationsAt {place : Place} (hp : place.Fits (c.rest.take i)) :
    ∃ j sites, (c.skip i).declarationsAt place = (sites.flatMap Site.declared, c.skip j) ∧
      c.Recognises i j sites ∧
      (StartsStatement (c.rest.take j) → ∀ vs d, ¬ (c.skip j).Declaration vs d) ∧
      ((c.skip j).kind? = some (.opens .paren) ∨ (c.skip j).kind? = none →
        j = i ∧ place.Fits (c.rest.take j)) := by
  unfold declarationsAt
  split
  next hfresh =>
    have hstart := hp.fresh.mp hfresh
    unfold declarations
    cases hd : (c.skip i).declarations? with
    | none =>
      refine ⟨i, [], rfl, recognises_nil c i, ?_, fun _ => ⟨rfl, hp⟩⟩
      intro _ vs d hdecl
      rw [declarations?_eq_some_iff.mpr hdecl] at hd
      cases hd
    | some found =>
      obtain ⟨vs, d⟩ := found
      have hdecl := declarations?_eq_some_iff.mp hd
      obtain ⟨-, m, hm⟩ := hdecl.passes
      obtain rfl : d = c.skip (i + 1 + m) := by rw [hm, ← skip_skip, ← skip_skip]; rfl
      -- Behind the declarations stands `=` or `;`: nothing is declared there, and what the place
      -- was in front of them does not matter any more.
      refine ⟨i + 1 + m, [⟨i, i + 1 + m, vs⟩], by simp, ?_, ?_, ?_⟩
      · exact recognises_site hstart (by omega) hdecl
      · exact fun _ _ _ => hdecl.not_declaration
      · intro hk
        rcases hdecl.kind?_stop with hstop | hstop
        · simp [hstop] at hk
        · simp [hstop] at hk
  next hfresh =>
    have hstart : ¬ StartsStatement (c.rest.take i) := fun h => hfresh (hp.fresh.mpr h)
    exact ⟨i, [], rfl, recognises_nil c i, fun h => absurd h hstart, fun _ => ⟨rfl, hp⟩⟩

/-- The walk over a body finds the declarations at the starts of statements up to the brace at
which it stops, or up to the last token. -/
theorem exists_recognises_scanBody (c : Cursor) (inner : Nat) (place : Place) (a : Cursor) :
    ∀ i, a = c.skip i → i ≤ c.rest.length → place.Fits (c.rest.take i) → ∃ last sites,
      c.Recognises i last sites ∧ (scanBody inner place a).locals = sites.flatMap Site.declared ∧
      ((∃ close, c.rest[last]? = some close ∧ close.kind = .closes .brace ∧
          (scanBody inner place a).closed = some close.range.stop) ∨
        last = c.rest.length ∧ (scanBody inner place a).closed = none) := by
  fun_induction scanBody inner place a with
  | case1 inner place a hr =>
    rintro i rfl hi hp
    obtain ⟨j, sites, hat, hsites, -, hstays⟩ := exists_recognises_declarationsAt hp
    rw [hat] at hr ⊢
    obtain ⟨rfl, -⟩ := hstays (Or.inr (by rw [kind?, hr]; rfl))
    refine ⟨j, sites, hsites, rfl, Or.inr ⟨?_, rfl⟩⟩
    rw [rest_skip, List.drop_eq_nil_iff] at hr
    exact Nat.le_antisymm hi hr
  | case2 inner place a t ts hr d hend =>
    rintro i rfl hi hp
    obtain ⟨j, sites, hat, hsites, -, -⟩ := exists_recognises_declarationsAt hp
    rw [hat] at hr ⊢
    obtain ⟨hget, -, -⟩ := token_of_rest_skip hr
    obtain ⟨hclose, -⟩ : t.kind = .closes .brace ∧ inner = 0 := by simpa using hend
    exact ⟨j, sites, hsites, rfl, Or.inl ⟨t, hget, hclose, rfl⟩⟩
  | case3 inner place a t ts hr d hend _ tail ih =>
    rintro i rfl hi hp
    obtain ⟨j, sites, hat, hsites, hnone, hstays⟩ := exists_recognises_declarationsAt hp
    have hd : d = c.skip (j + 1) :=
      (congrArg (fun found => found.2.advance) hat).trans (c.advance_skip j)
    rw [hat] at hr ⊢
    obtain ⟨-, htake, hlt⟩ := token_of_rest_skip hr
    have hnext : (place.after t).Fits (c.rest.take (j + 1)) := by
      rw [htake]
      refine Place.fits_after fun hk => (hstays (Or.inl ?_)).2
      rw [kind?, hr, List.head?_cons, Option.map_some, hk]
    obtain ⟨last, more, hmore, hlocals, hstop⟩ := ih (j + 1) hd hlt hnext
    have hsites := hsites.append (recognises_token hnone)
    rw [List.append_nil] at hsites
    refine ⟨last, sites ++ more, hsites.append hmore, ?_, hstop⟩
    rw [List.flatMap_append, ← hlocals]

end walk

end Cursor

/-- The tokens of a text inside a body are those from `first` up to `last`: in front of them stands
the brace that opens the body, and behind them the one that closes it, if there is one. -/
structure Body.Spans (text : String) (b : Body) (first last : Nat) : Prop where
  opens : ∃ brace ∈ ((significant text).take first).getLast?,
    brace.kind = .opens .brace ∧ brace.range.start = b.range.start
  closes : (∃ close, (significant text)[last]? = some close ∧ close.kind = .closes .brace ∧
      close.range.stop = b.range.stop) ∨
    last = (significant text).length ∧ b.range.stop = byteLength text.toList

open Cursor (Site)

/-- The locals of a body are the variables of the declarations at the starts of its statements, in
order and none of them twice. -/
theorem locals_eq_declarations_at_starts (text : String) (c : Contract) (f : Function) (b : Body)
    (hc : c ∈ (readOutline text).outline.contracts) (hf : .function f ∈ c.members)
    (hb : f.body = some b) :
    ∃ first last sites, b.Spans text first last ∧
      (Reading.start text).cursor.Recognises first last sites ∧
      (∀ others, (Reading.start text).cursor.Recognises first last others → others = sites) ∧
      b.locals = sites.flatMap Site.declared ∧
      b.locals.Pairwise (fun v w => v.range.stop ≤ w.range.start) ∧ b.locals.Nodup := by
  obtain ⟨r, hr, -, hfunction⟩ := Reading.exists_function_of_mem hc hf
  obtain ⟨s, hs, hbrace, rfl, -⟩ := Reading.function_body_cases hfunction hb
  have hin := (Reading.sound_start text).cursor
  have hreach := hr.trans (r.cursor.reaches_advance.trans hs)
  have hrow := (hin.reaches hreach).advance.row_scanBody 0 .fresh
  obtain ⟨brace, inside, hrest, hkind⟩ := Cursor.rest_of_kind? (Cursor.kind?_of_sees hbrace)
  have ⟨i, hi⟩ := hreach
  obtain ⟨-, htake, hlt⟩ := Cursor.token_of_rest_skip (hi ▸ hrest)
  obtain ⟨last, sites, hsites, hlocals, hstop⟩ := Cursor.exists_recognises_scanBody
    (Reading.start text).cursor 0 .fresh s.cursor.advance (i + 1)
    (by rw [hi, Cursor.advance_skip]) hlt (htake ▸ Cursor.Place.fits_fresh_of_brace hkind)
  rw [s.functionBody_fst]
  refine ⟨i + 1, last, sites, ⟨⟨brace, ?_, hkind, ?_⟩, ?_⟩, hsites,
    fun others h => h.unique hsites, hlocals, ?_, ?_⟩
  · rw [← rest_start, htake, List.getLast?_concat]
    rfl
  · simp [Reading.here, Cursor.here, hrest]
  · rcases hstop with ⟨close, hget, hclose, hclosed⟩ | ⟨hlast, hopen⟩
    · exact Or.inl ⟨close, hget, hclose, by rw [hclosed]; rfl⟩
    · refine Or.inr ⟨hlast, ?_⟩
      rw [hopen]
      exact (hin.reaches hreach).textEnd
  · exact List.pairwise_map.mp hrow.pairwise
  · refine (List.pairwise_map.mp hrow.pairwise).imp_of_mem ?_
    rintro v w hv - hle rfl
    rw [hlocals] at hv
    exact absurd hle (hsites.range_lt hin hv).not_ge

def branches : String :=
  "contract C \x7b function f() \x7b for (uint i = 0; g(i);) \x7b (uint a, , S memory s) = h(); \x7d " ++
    "if (x) y = 2; else address payable p = q; \x7d \x7d"

def branchLocals : List LocalVariable :=
  [⟨.named "uint", ⟨"i", ⟨38, 39⟩⟩, ⟨33, 39⟩⟩, ⟨.named "uint", ⟨"a", ⟨60, 61⟩⟩, ⟨55, 61⟩⟩,
    ⟨.named "S", ⟨"s", ⟨74, 75⟩⟩, ⟨65, 75⟩⟩,
    ⟨.named "address payable", ⟨"p", ⟨121, 122⟩⟩, ⟨105, 122⟩⟩]

def branchBody : Body := ⟨⟨26, 129⟩, branchLocals⟩

def branchFunction : Function :=
  ⟨.function, ⟨"f", ⟨22, 23⟩⟩, [], [], some branchBody, ⟨13, 129⟩⟩

def branchContract : Contract :=
  ⟨.contract, false, ⟨"C", ⟨9, 10⟩⟩, [], [.function branchFunction], ⟨0, 131⟩⟩

theorem locals_eq_declarations_of_branches :
    ∃ c ∈ (readOutline branches).outline.contracts, ∃ f b, .function f ∈ c.members ∧
      f.body = some b ∧ ∃ first last sites, b.Spans branches first last ∧
        (Reading.start branches).cursor.Recognises first last sites ∧
        sites.flatMap Site.declared = branchLocals := by
  have hc : branchContract ∈ (readOutline branches).outline.contracts := by decide +kernel
  have hf : .function branchFunction ∈ branchContract.members := List.mem_cons_self
  obtain ⟨first, last, sites, hspans, hsites, -, hlocals, -⟩ :=
    locals_eq_declarations_at_starts branches branchContract branchFunction branchBody hc hf rfl
  exact ⟨branchContract, hc, branchFunction, branchBody, hf, rfl, first, last, sites, hspans,
    hsites, hlocals.symm⟩

end SolidityCompass
