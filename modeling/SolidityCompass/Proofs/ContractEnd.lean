import SolidityCompass.Proofs.Depth
import SolidityCompass.Proofs.Items

/-!
# Where contracts end

The body of a contract is read member by member until a closing brace comes next. All members but
one leave reading at the depth of the contract, however malformed they are. An enum is left at
the first member that is neither followed by a comma nor by the closing brace, with its block
still open, and the contract then ends with the enum's brace. So a contract whose brackets nest
ends at its own brace exactly if the body of each of its enums is a list of single tokens with
commas between them.
-/

namespace SolidityCompass

/-- Single tokens other than braces with a comma between any two, and possibly behind the last. -/
def CommaList : List Token → Prop
  | [] => True
  | [t] => t.kind ≠ .opens .brace ∧ t.kind ≠ .closes .brace
  | t :: comma :: ts =>
    (t.kind ≠ .opens .brace ∧ t.kind ≠ .closes .brace) ∧ comma.kind = .comma ∧ CommaList ts

def ClosesList (tokens : List Token) : Prop :=
  ∃ body close after, tokens = body ++ close :: after ∧ CommaList body ∧
    close.kind = .closes .brace

/-- Among the tokens of a text the enum is its keyword, its name and a comma list in braces. -/
def Enum.IsCommaList (tokens : List Token) (e : Enum) : Prop :=
  ∃ before keyword name brace list, tokens = before ++ keyword :: name :: brace :: list ∧
    keyword.range.start = e.range.start ∧ brace.kind = .opens .brace ∧ ClosesList list

theorem closesList_cons {t : Token} {ts : List Token} (h : ClosesList (t :: ts)) :
    t.kind = .closes .brace ∨
      (t.kind ≠ .opens .brace ∧ t.kind ≠ .closes .brace ∧
        ∃ u us, ts = u :: us ∧
          (u.kind = .closes .brace ∨ u.kind = .comma ∧ ClosesList us)) := by
  obtain ⟨body, close, after, hsplit, hbody, hclose⟩ := h
  match body, hsplit, hbody with
  | [], hsplit, _ =>
    obtain ⟨rfl, rfl⟩ := List.cons.inj hsplit
    exact Or.inl hclose
  | [x], hsplit, hbody =>
    obtain ⟨rfl, rfl⟩ := List.cons.inj hsplit
    exact Or.inr ⟨hbody.1, hbody.2, close, after, rfl, Or.inl hclose⟩
  | x :: comma :: body, hsplit, hbody =>
    obtain ⟨rfl, rfl⟩ := List.cons.inj hsplit
    exact Or.inr ⟨hbody.1.1, hbody.1.2, comma, _, rfl,
      Or.inr ⟨hbody.2.1, body, close, after, rfl, hbody.2.2, hclose⟩⟩

theorem ClosesList.cons_comma {t comma : Token} {ts : List Token} (h : ClosesList ts)
    (ho : t.kind ≠ .opens .brace) (hc : t.kind ≠ .closes .brace) (hcomma : comma.kind = .comma) :
    ClosesList (t :: comma :: ts) := by
  obtain ⟨body, close, after, rfl, hbody, hclose⟩ := h
  exact ⟨t :: comma :: body, close, after, rfl, ⟨⟨ho, hc⟩, hcomma, hbody⟩, hclose⟩

theorem closesList_cons_comma_iff {t comma : Token} {ts : List Token} (ho : t.kind ≠ .opens .brace)
    (hc : t.kind ≠ .closes .brace) (hcomma : comma.kind = .comma) :
    ClosesList (t :: comma :: ts) ↔ ClosesList ts := by
  refine ⟨fun h => ?_, fun h => h.cons_comma ho hc hcomma⟩
  rcases closesList_cons h with hclose | ⟨-, -, u, us, hus, hclose | ⟨-, hlist⟩⟩
  · exact absurd hclose hc
  · obtain ⟨rfl, -⟩ := List.cons.inj hus
    simp [hcomma] at hclose
  · obtain ⟨-, rfl⟩ := List.cons.inj hus
    exact hlist

theorem not_closesList_of_brace {t : Token} {ts : List Token} (ho : t.kind = .opens .brace) :
    ¬ ClosesList (t :: ts) := by
  intro h
  rcases closesList_cons h with hclose | ⟨hne, -⟩
  · simp [ho] at hclose
  · exact hne ho

namespace Reading

open Cursor (Fenced Bounded isBoundary blocksAfter)

variable {tail : List Token} {n : Nat} {r s : Reading}

/-- The token that an enum takes for a member, whatever it is. -/
theorem cursor_enumMember (r : Reading) : r.enumMember.2.cursor = r.cursor.advance := by
  unfold enumMember
  split
  next name c hn =>
    obtain ⟨_, _, _, _, _, rfl⟩ := Cursor.name?_eq_some hn
    rfl
  next => rfl

theorem le_blocksAfter_of_ne {kind : Kind} (hc : kind ≠ .closes .brace) :
    n ≤ blocksAfter n kind := by
  by_cases ho : kind = .opens .brace
  · subst ho
    simp [blocksAfter]
  · exact Nat.le_of_eq (Cursor.blocksAfter_of_ne ho hc).symm

/-- A member without a comma behind it is the last one: either the brace of the enum follows, or
the enum is left with its block open. -/
theorem inside_lastMember {kind : Kind} (h : r.cursor.Inside tail (n + 1))
    (hk : r.kind? = some kind) (hc : kind ≠ .closes .brace)
    (hcomma : ¬ r.enumMember.2.sees .comma = true) :
    (ClosesList r.cursor.rest ∧
        (r.enumMember.2.expect (.closes .brace)).cursor.Inside tail n) ∨
      (¬ ClosesList r.cursor.rest ∧
        ∃ m > n, (r.enumMember.2.expect (.closes .brace)).cursor.Inside tail m) := by
  obtain ⟨t, ts, hr, rfl⟩ := Cursor.rest_of_kind? hk
  have hne : r.cursor.rest ≠ tail := fun hrest => by simpa using h.eq_zero_of_rest_eq hrest
  have hmember := cursor_enumMember r
  have hstep := (h.advance_of_rest_ne hk hne).1
  have hle : n + 1 ≤ blocksAfter (n + 1) t.kind := le_blocksAfter_of_ne hc
  have hrest : r.enumMember.2.cursor.rest = ts := by
    rw [hmember, Cursor.rest_advance, hr, List.tail_cons]
  rw [← hmember] at hstep
  rw [hr]
  unfold expect
  split
  next hs =>
    have hk' : r.enumMember.2.cursor.kind? = some (.closes .brace) := Cursor.kind?_of_sees hs
    obtain ⟨u, us, hr', hu⟩ := Cursor.rest_of_kind? hk'
    have hne' : r.enumMember.2.cursor.rest ≠ tail := by
      intro hrest
      have hzero := hstep.eq_zero_of_rest_eq hrest
      omega
    have hlast := (hstep.advance_of_rest_ne hk' hne').1
    by_cases ho : t.kind = .opens .brace
    · -- A brace in place of a member: the brace behind it closes that block only.
      have hblock : r.enumMember.2.advance.cursor.Inside tail (n + 1) := by
        simpa [ho, blocksAfter] using hlast
      exact Or.inr ⟨not_closesList_of_brace ho, n + 1, Nat.lt_succ_self n, hblock⟩
    · rw [Cursor.blocksAfter_of_ne ho hc] at hlast
      refine Or.inl ⟨⟨[t], u, us, ?_, ⟨ho, hc⟩, hu⟩, hlast⟩
      rw [List.singleton_append, ← hr', hrest]
  next hs =>
    refine Or.inr ⟨fun hlist => ?_, _, hle, hstep⟩
    rcases closesList_cons hlist with hclose | ⟨-, -, v, vs, hvs, hclose | ⟨hv, -⟩⟩
    · exact hc hclose
    · exact hs (Cursor.sees_of_kind? (by simp [Cursor.kind?, hrest, hvs, hclose]))
    · exact hcomma (Cursor.sees_of_kind? (by simp [Cursor.kind?, hrest, hvs, hv]))

/-- The members of an enum end with its block if they form a comma list, and else with at least
one block more open than around the enum. -/
theorem inside_enumMembers (hbound : Bounded tail) (h : r.cursor.Inside tail (n + 1)) :
    (ClosesList r.cursor.rest ∧ r.enumMembers.2.cursor.Inside tail n) ∨
      (¬ ClosesList r.cursor.rest ∧ ∃ m > n, r.enumMembers.2.cursor.Inside tail m) := by
  fun_induction enumMembers r generalizing n with
  | case1 r hk =>
    obtain ⟨stack, ahead, hr, _⟩ := h
    obtain ⟨t, post, rfl, _⟩ := hbound
    simp [kind?, Cursor.kind?, hr] at hk
  | case2 r hk =>
    obtain ⟨t, ts, hr, ht⟩ := Cursor.rest_of_kind? hk
    have hne : r.cursor.rest ≠ tail := fun hrest => by simpa using h.eq_zero_of_rest_eq hrest
    refine Or.inl ⟨⟨[], t, ts, hr, trivial, ht⟩, ?_⟩
    simpa [blocksAfter] using (h.advance_of_rest_ne hk hne).1
  | case3 r kind hk hc hcomma =>
    rename_i ih
    obtain ⟨t, ts, hr, rfl⟩ := Cursor.rest_of_kind? hk
    have hne : r.cursor.rest ≠ tail := fun hrest => by simpa using h.eq_zero_of_rest_eq hrest
    have hmember := cursor_enumMember r
    have hk' : r.cursor.advance.kind? = some .comma := hmember ▸ Cursor.kind?_of_sees hcomma
    obtain ⟨u, us, hr', hu⟩ := Cursor.rest_of_kind? hk'
    obtain rfl : ts = u :: us := by simpa [hr] using hr'
    have hrest : r.enumMember.2.advance.cursor.rest = us := by
      rw [cursor_advance, hmember, Cursor.rest_advance, hr', List.tail_cons]
    have hstep := (h.advance_of_rest_ne hk hne).1.step hbound hk' rfl (by simp)
    rw [← hmember] at hstep
    rw [hr]
    by_cases ho : t.kind = .opens .brace
    · -- A brace in place of a member: the list can close this block only.
      rw [ho] at hstep
      refine Or.inr ⟨not_closesList_of_brace ho, ?_⟩
      rcases ih hstep with ⟨-, hin⟩ | ⟨-, m, hm, hin⟩
      · exact ⟨n + 1, Nat.lt_succ_self n, hin⟩
      · exact ⟨m, Nat.lt_of_succ_lt hm, hin⟩
    · rw [Cursor.blocksAfter_of_ne ho hc] at hstep
      have htail := ih hstep
      rw [hrest] at htail
      rwa [closesList_cons_comma_iff ho hc hu]
  | case4 r kind hk hc hcomma => exact inside_lastMember h hk hc hcomma

/-- The name of a block and its brace: either they are missing and the item is skipped, or the
cursor has come to the brace and stepped over it. -/
theorem blockName_cases (role : NameRole) (h : r.cursor.Inside tail n) (hfence : Fenced tail) :
    (∃ s, r.blockName role = (none, s) ∧ s.cursor.Inside tail n) ∨
      ∃ (name : Name) (s : Reading), r.blockName role = (some name, s.advance) ∧
        r.cursor.name? = some (name, s.cursor) ∧ s.kind? = some (.opens .brace) := by
  unfold blockName expectName
  cases hn : r.cursor.name? with
  | none => exact Or.inl ⟨_, rfl, Cursor.Inside.skipItem h hfence⟩
  | some found =>
    obtain ⟨name, c⟩ := found
    have hc := h.name? hfence.bounded hn
    dsimp only
    split
    next hs => exact Or.inr ⟨name, r.goTo c, rfl, rfl, Cursor.kind?_of_sees hs⟩
    next => exact Or.inl ⟨_, rfl, hc.skipItem hfence⟩

/-- The parts of a block in front of its brace `close`. `keep` holds of all cursors on the way. A
part either stays at the depth where it started or is not `good` and goes deeper; the block ends
at `close` if it starts at depth zero and all its parts are good, and else before `close`. -/
theorem block_of_inside {α : Type} (name : Block) (part : Reading → Option α × Reading)
    (progress : ∀ {r : Reading} {kind : Kind}, r.kind? = some kind → kind ≠ .closes .brace →
      r.Passes (part r).2) {close : Token} {post : List Token} (keep : Cursor → Prop)
    (good : α → Prop)
    (hkeep : ∀ {c d : Cursor}, c.Reaches d → keep c → keep d)
    (hpart : ∀ {r : Reading} {kind : Kind} {n : Nat}, r.kind? = some kind →
      kind ≠ .closes .brace → keep r.cursor → r.cursor.Inside (close :: post) n →
      ((∀ x, (part r).1 = some x → good x) ∧ (part r).2.cursor.Inside (close :: post) n) ∨
        ((∃ x, (part r).1 = some x ∧ ¬ good x) ∧
          ∃ m > n, (part r).2.cursor.Inside (close :: post) m))
    (hr : keep r.cursor) (h : r.cursor.Inside (close :: post) n) :
    ((n = 0 ∧ ∀ x ∈ (r.block name part progress).1, good x) ∧
      (r.block name part progress).2.cursor.rest = post ∧
      (r.block name part progress).2.cursor.passed = close.range.stop) ∨
    (¬ (n = 0 ∧ ∀ x ∈ (r.block name part progress).1, good x) ∧
      ∃ m, (r.block name part progress).2.cursor.Inside (close :: post) m) := by
  fun_induction block name part progress r generalizing n with
  | case1 r hk =>
    obtain ⟨stack, ahead, hr, _⟩ := h
    simp [kind?, Cursor.kind?, hr] at hk
  | case2 r hk =>
    by_cases hend : r.cursor.rest = close :: post
    · obtain rfl := h.eq_zero_of_rest_eq hend
      exact Or.inl ⟨⟨rfl, by simp⟩, by simp [hend], by simp [Cursor.advance, hend]⟩
    · obtain ⟨hstep, hpos⟩ := h.advance_of_rest_ne hk hend
      exact Or.inr ⟨fun hgood => absurd (hpos rfl) (by omega), _, hstep⟩
  | case3 r kind hk hc =>
    rename_i ih
    have hr' := hkeep (progress hk hc).reaches hr
    rcases hpart hk hc hr h with ⟨hgood, hin⟩ | ⟨⟨x, hx, hbad⟩, m, hm, hin⟩
    · -- A part at the same depth: the rest of the block decides.
      have hall : ∀ (xs : List α), (∀ y ∈ (part r).1.toList ++ xs, good y) ↔ ∀ y ∈ xs, good y := by
        intro xs
        simp only [List.mem_append, Option.mem_toList]
        exact ⟨fun hy y hmem => hy y (Or.inr hmem), fun hy y hmem =>
          hmem.elim (fun hsome => hgood y hsome) (hy y)⟩
      rcases ih hr' hin with ⟨⟨hn, hrest⟩, hend⟩ | ⟨hnot, hend⟩
      · exact Or.inl ⟨⟨hn, (hall _).mpr hrest⟩, hend⟩
      · exact Or.inr ⟨fun hwhole => hnot ⟨hwhole.1, (hall _).mp hwhole.2⟩, hend⟩
    · -- Deeper now: the rest of the block cannot come to `close`.
      refine Or.inr ⟨fun hwhole => hbad (hwhole.2 x (by simp [hx])), ?_⟩
      rcases ih hr' hin with ⟨⟨rfl, -⟩, -⟩ | ⟨-, hend⟩
      · exact absurd hm (Nat.not_lt_zero n)
      · exact hend

/-- A block in front of its brace `close` ends there if all its parts keep their depth. `ok` holds
of the readings at which they start. -/
theorem block_rest_of_inside {α : Type} (name : Block) (part : Reading → Option α × Reading)
    (progress : ∀ {r : Reading} {kind : Kind}, r.kind? = some kind → kind ≠ .closes .brace →
      r.Passes (part r).2) {close : Token} {post : List Token} (ok : Reading → Prop)
    (hpart : ∀ {r : Reading} {kind : Kind}, r.kind? = some kind → kind ≠ .closes .brace → ok r →
      ok (part r).2 ∧ ∀ n, r.cursor.Inside (close :: post) n →
        (part r).2.cursor.Inside (close :: post) n)
    (hr : ok r) (h : r.cursor.Inside (close :: post) 0) :
    (r.block name part progress).2.cursor.rest = post := by
  fun_induction block name part progress r with
  | case1 r hk =>
    obtain ⟨stack, ahead, hrest, _⟩ := h
    simp [kind?, Cursor.kind?, hrest] at hk
  | case2 r hk =>
    by_cases hend : r.cursor.rest = close :: post
    · simp [hend]
    · exact absurd ((h.advance_of_rest_ne hk hend).2 rfl) (Nat.lt_irrefl 0)
  | case3 r kind hk hc _ _ ih =>
    obtain ⟨hok, hin⟩ := hpart hk hc hr
    exact ih hok (hin 0 h)

/-- The fields of a struct, from its brace on. -/
theorem inside_fields (h : r.cursor.Inside tail n) (hbound : Bounded tail)
    (hk : r.kind? = some (.opens .brace)) :
    (r.advance.block .struct field passes_field).2.cursor.Inside tail n := by
  obtain ⟨body, close, post, hr, hbody, hclose, hafter⟩ := h.group hk (hbound.rest_ne hk rfl)
  have hfence : Fenced (close :: post) := ⟨close, post, rfl, hclose⟩
  exact hafter _ (block_rest_of_inside .struct field passes_field (fun _ => True)
    (fun _ _ _ => ⟨trivial, fun n hin => inside_field hin hfence⟩) trivial
    (Cursor.inside_of_nested hr hbody))

theorem inside_struct (h : r.cursor.Inside tail n) (hfence : Fenced tail)
    (hk : r.kind? = some (.keyword .structKw)) : r.struct.2.cursor.Inside tail n := by
  have ha := inside_advance h hfence hk rfl (by simp)
  unfold struct
  rcases blockName_cases .struct ha hfence with ⟨s, hs, hin⟩ | ⟨name, s, hs, hname, hbrace⟩
  · rw [hs]
    exact hin
  · rw [hs]
    exact inside_fields (ha.name? hfence.bounded hname) hfence.bounded hbrace

theorem isCommaList_iff {tokens before list : List Token} {keyword name brace : Token} {e : Enum}
    (hordered : Ordered tokens) (hsplit : tokens = before ++ keyword :: name :: brace :: list)
    (hstart : keyword.range.start = e.range.start) (hbrace : brace.kind = .opens .brace) :
    e.IsCommaList tokens ↔ ClosesList list := by
  constructor
  · rintro ⟨before', keyword', name', brace', list', hsplit', hstart', -, hlist⟩
    have hsame := hordered.split_unique hsplit hsplit' (hstart.trans hstart'.symm)
    obtain rfl : list = list' := by simp_all
    exact hlist
  · intro hlist
    exact ⟨before, keyword, name, brace, list, hsplit, hstart, hbrace, hlist⟩

/-- An enum keeps its depth, unless its body is no comma list and it goes deeper. -/
theorem enum_cases {tokens : List Token} (hordered : Ordered tokens) (hon : r.cursor.On tokens)
    (h : r.cursor.Inside tail n) (hfence : Fenced tail)
    (hk : r.kind? = some (.keyword .enumKw)) :
    ((∀ e, r.enum.1 = some e → e.IsCommaList tokens) ∧ r.enum.2.cursor.Inside tail n) ∨
      ((∃ e, r.enum.1 = some e ∧ ¬ e.IsCommaList tokens) ∧
        ∃ m > n, r.enum.2.cursor.Inside tail m) := by
  have ha := inside_advance h hfence hk rfl (by simp)
  unfold enum
  rcases blockName_cases .enum ha hfence with ⟨s, hs, hin⟩ | ⟨name, s, hs, hname, hbrace⟩
  · rw [hs]
    exact Or.inl ⟨by simp, hin⟩
  · rw [hs]
    obtain ⟨done, hdone, -⟩ := hon
    obtain ⟨keyword, ts, hr, -⟩ := Cursor.rest_of_kind? hk
    obtain ⟨nameToken, us, hr', -, -, hcursor⟩ := Cursor.name?_eq_some hname
    obtain ⟨brace, list, hr'', hkind⟩ := Cursor.rest_of_kind? hbrace
    have hlist : s.advance.cursor.rest = list := by simp [hr'']
    have hsplit : tokens = done ++ keyword :: nameToken :: brace :: list := by
      rw [cursor_advance, Cursor.rest_advance, hr, List.tail_cons] at hr'
      rw [hcursor, cursor_advance, Cursor.rest_advance, Cursor.rest_advance, hr, List.tail_cons,
        hr', List.tail_cons] at hr''
      rw [hdone, hr, hr', hr'']
    have hin : s.advance.cursor.Inside tail (n + 1) := by
      have hstep := (ha.name? hfence.bounded hname).advance_of_rest_ne hbrace
        (hfence.rest_ne hbrace (by simp))
      simpa [blocksAfter] using hstep.1
    have hiff := isCommaList_iff (e := ⟨name, s.advance.enumMembers.1,
      s.advance.enumMembers.2.rangeFrom r.here.start⟩) hordered hsplit
      (by simp [rangeFrom, here, Cursor.here, hr]) hkind
    rw [← hlist] at hiff
    rcases inside_enumMembers hfence.bounded hin with ⟨hlist, hend⟩ | ⟨hlist, hend⟩
    · exact Or.inl ⟨by rintro e ⟨⟩; exact hiff.mpr hlist, hend⟩
    · exact Or.inr ⟨⟨_, rfl, fun hcomma => hlist (hiff.mp hcomma)⟩, hend⟩

def EnumsAreCommaLists (tokens : List Token) (m : Member) : Prop :=
  ∀ e, m = .enum e → e.IsCommaList tokens

/-- Members other than enums keep their depth. -/
theorem inside_member_of_ne_enum (h : r.cursor.Inside tail n) (hfence : Fenced tail)
    (hk : r.kind? ≠ some (.keyword .enumKw)) : r.member.2.cursor.Inside tail n := by
  unfold member
  split
  next hk => exact inside_function h hfence (Or.inl hk)
  next hk => exact inside_function h hfence (Or.inr (Or.inl hk))
  next hk => exact inside_event h hfence hk
  next hk => exact inside_struct h hfence hk
  next henum => exact absurd henum hk
  next hk => exact inside_usingFor h hfence hk
  next hk => exact inside_advance h hfence hk rfl (by simp)
  next =>
    split
    next hs =>
      simp only [Bool.and_eq_true, Bool.or_eq_true] at hs
      rcases hs.1 with hk | hk
      · exact inside_function h hfence (Or.inr (Or.inr (Or.inl (Cursor.kind?_of_sees hk))))
      · exact inside_function h hfence (Or.inr (Or.inr (Or.inr (Cursor.kind?_of_sees hk))))
    next =>
      split
      next => exact Cursor.Inside.skipItem h hfence
      next => exact inside_stateVariable h hfence

theorem kind?_of_member_enum {e : Enum} (h : r.member.1 = some (.enum e)) :
    r.kind? = some (.keyword .enumKw) := by
  unfold member at h
  split at h
  case h_5 hk => exact hk
  case h_8 =>
    split at h
    · simp at h
    · split at h <;> simp at h
  all_goals simp at h

theorem member_of_enum (hk : r.kind? = some (.keyword .enumKw)) :
    r.member = (r.enum.1.map .enum, r.enum.2) := by
  unfold member
  rw [hk]

/-- A member keeps its depth, unless it is an enum whose body is no comma list. -/
theorem member_cases {tokens : List Token} (hordered : Ordered tokens)
    (hon : r.cursor.On tokens) (h : r.cursor.Inside tail n) (hfence : Fenced tail) :
    ((∀ m, r.member.1 = some m → EnumsAreCommaLists tokens m) ∧
        r.member.2.cursor.Inside tail n) ∨
      ((∃ m, r.member.1 = some m ∧ ¬ EnumsAreCommaLists tokens m) ∧
        ∃ m > n, r.member.2.cursor.Inside tail m) := by
  by_cases hk : r.kind? = some (.keyword .enumKw)
  · rw [member_of_enum hk]
    rcases enum_cases hordered hon h hfence hk with ⟨hall, hin⟩ | ⟨⟨e, he, hbad⟩, hin⟩
    · refine Or.inl ⟨?_, hin⟩
      rintro m hm e rfl
      obtain ⟨e', he', heq⟩ := Option.map_eq_some_iff.mp hm
      exact hall e (by rw [he', Member.enum.inj heq])
    · exact Or.inr ⟨⟨.enum e, by simp [he], fun hgood => hbad (hgood e rfl)⟩, hin⟩
  · refine Or.inl ⟨?_, inside_member_of_ne_enum h hfence hk⟩
    rintro m hm e rfl
    exact absurd (kind?_of_member_enum hm) hk

end Reading

/-- A contract whose brackets nest ends at its own brace exactly if its enums are comma lists; with
another enum in it, it ends before its brace. -/
theorem contract_stop_eq_iff_commaLists (text : String) (c : Contract)
    (hc : c ∈ (readOutline text).outline.contracts) :
    (∃ brace inside, c.BodyOpens text brace inside ∧ brace.kind = .opens .brace) ∧
      ∀ brace inside body close after, c.BodyOpens text brace inside →
        inside = body ++ close :: after → Nested body → close.kind = .closes .brace →
        (c.range.stop = close.range.stop ↔
          ∀ e, Member.enum e ∈ c.members → e.IsCommaList (significant text)) := by
  refine ⟨Contract.exists_bodyOpens hc, ?_⟩
  rintro brace inside body close after ⟨r, s, before, hwalk, hcontract, hbody, rfl, -⟩ hsplit
    hnested hclose
  obtain ⟨s', -, hs', hmembers, hend, hstop, -⟩ := Reading.contract_cases hcontract
  obtain rfl : s' = s := Option.some.inj (hs'.symm.trans hbody)
  obtain ⟨t, rfl, -, hreach⟩ := Reading.exists_brace_of_body? hbody
  have hordered := ordered_significant text
  have hon : t.advance.cursor.On (significant text) := (hwalk.on.reaches hreach).advance
  have hfence : Cursor.Fenced (close :: after) := ⟨close, after, rfl, hclose⟩
  have hblock := Reading.block_of_inside .contractBody Reading.member Reading.passes_member
    (Cursor.On (significant text)) (Reading.EnumsAreCommaLists (significant text))
    (fun hreach hon => hon.reaches hreach)
    (fun _ _ hon hin => Reading.member_cases hordered hon hin hfence) hon
    (Cursor.inside_of_nested hsplit hnested)
  have hgood : (∀ x ∈ c.members, Reading.EnumsAreCommaLists (significant text) x) ↔
      ∀ e, Member.enum e ∈ c.members → e.IsCommaList (significant text) := by
    constructor
    · intro h e he
      exact h _ he e rfl
    · rintro h x hx e rfl
      exact h e hx
  rw [hstop, hend, ← hgood, hmembers]
  rcases hblock with ⟨⟨-, hall⟩, -, hpassed⟩ | ⟨hnot, m, hin⟩
  · exact ⟨fun _ => hall, fun _ => hpassed⟩
  · refine ⟨fun heq => ?_, fun hall => absurd ⟨rfl, hall⟩ hnot⟩
    obtain ⟨stack, ahead, hrest, -⟩ := hin
    have hlt := (hon.reaches (Reading.reaches_block _ _ _ _)).passed_lt hordered hrest
    exact absurd heq (Nat.ne_of_lt hlt)

def malformedMembers : String :=
  "contract C \x7b enum E \x7b A, 1, \x7d uint ; struct S \x7b x \x7d event ( \x7b ; \x7d ) ; \x7d"

def malformedContract : Contract :=
  ⟨.contract, false, ⟨"C", ⟨9, 10⟩⟩, [],
    [.enum ⟨⟨"E", ⟨18, 19⟩⟩, [⟨"A", ⟨22, 23⟩⟩], ⟨13, 29⟩⟩, .struct ⟨⟨"S", ⟨44, 45⟩⟩, [], ⟨37, 51⟩⟩],
    ⟨0, 71⟩⟩

theorem contract_stop_of_malformedMembers :
    ∃ c ∈ (readOutline malformedMembers).outline.contracts,
      (∀ e, Member.enum e ∈ c.members → e.IsCommaList (significant malformedMembers)) ∧
        c.range.stop = 71 := by
  have hmem : malformedContract ∈ (readOutline malformedMembers).outline.contracts := by
    decide +kernel
  have hc : (Reading.start malformedMembers).contract.1 = some malformedContract := by
    decide +kernel
  have hs : (Reading.start malformedMembers).body?.map (fun s => s.cursor.rest) =
      some (((significant malformedMembers).drop 3).take 22 ++
        [⟨.closes .brace, "\x7d", ⟨70, 71⟩⟩]) := by decide +kernel
  obtain ⟨s, hs, hrest⟩ := Option.map_eq_some_iff.mp hs
  refine ⟨malformedContract, hmem, ?_, rfl⟩
  refine ((contract_stop_eq_iff_commaLists malformedMembers malformedContract hmem).2
    ⟨.opens .brace, "\x7b", ⟨11, 12⟩⟩ _ _ _ _
    ⟨_, s, (significant malformedMembers).take 2, .refl _, hc, hs, hrest, ?_⟩ rfl ?_ rfl).mp rfl
  · decide +kernel
  · decide +kernel

def unseparatedEnum : String :=
  "contract C \x7b enum E \x7b A B \x7d uint x; \x7d"

def unseparatedContract : Contract :=
  ⟨.contract, false, ⟨"C", ⟨9, 10⟩⟩, [], [.enum ⟨⟨"E", ⟨18, 19⟩⟩, [⟨"A", ⟨22, 23⟩⟩], ⟨13, 23⟩⟩],
    ⟨0, 27⟩⟩

/-- The contract ends with the brace of its enum, and its own brace comes ten bytes later. -/
theorem contract_stops_before_its_brace :
    ∃ c ∈ (readOutline unseparatedEnum).outline.contracts, ∃ brace body close,
      c.BodyOpens unseparatedEnum brace (body ++ [close]) ∧ Nested body ∧
        close.kind = .closes .brace ∧ c.range.stop = 27 ∧ close.range.stop = 37 := by
  have hc : (Reading.start unseparatedEnum).contract.1 = some unseparatedContract := by
    decide +kernel
  have hs : (Reading.start unseparatedEnum).body?.map (fun s => s.cursor.rest) =
      some (((significant unseparatedEnum).drop 3).take 9 ++
        [⟨.closes .brace, "\x7d", ⟨36, 37⟩⟩]) := by decide +kernel
  obtain ⟨s, hs, hrest⟩ := Option.map_eq_some_iff.mp hs
  refine ⟨_, by decide +kernel, ⟨.opens .brace, "\x7b", ⟨11, 12⟩⟩, _, _,
    ⟨_, s, (significant unseparatedEnum).take 2, .refl _, hc, hs, hrest, ?_⟩, ?_, rfl, rfl, rfl⟩
  · decide +kernel
  · decide +kernel

end SolidityCompass
