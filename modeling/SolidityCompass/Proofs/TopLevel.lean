import SolidityCompass.Proofs.ContractEnd
import SolidityCompass.Proofs.Faults

/-!
# Contracts at the top level of a text without errors

Between the items of a text lie no tokens, so an item begins at the start or behind the end of
another one. In a text without errors an item ends with a `;` or a `}`, and an item that no
outline shows ends at the first of them outside of its brackets, whatever stands in front of it.
So a contract at depth zero is in the outline exactly if it stands at the start of the text or
behind such a token, with nothing but `abstract` in between.
-/

namespace SolidityCompass

namespace Cursor

def Stops (c d : Cursor) : Prop :=
  ∃ front last, c.rest = front ++ last :: d.rest ∧
    (last.kind = .semicolon ∨ last.kind = .closes .brace)

variable {c d e : Cursor}

theorem Reaches.trans_stops (h : c.Reaches d) (h' : d.Stops e) : c.Stops e := by
  obtain ⟨m, rfl⟩ := h
  obtain ⟨front, last, hrest, hlast⟩ := h'
  refine ⟨c.rest.take m ++ front, last, ?_, hlast⟩
  rw [List.append_assoc, ← hrest, rest_skip, List.take_append_drop]

theorem stops_advance {kind : Kind} (h : c.kind? = some kind)
    (hk : kind = .semicolon ∨ kind = .closes .brace) : c.Stops c.advance := by
  obtain ⟨t, ts, hr, rfl⟩ := rest_of_kind? h
  exact ⟨[], t, by simp [hr], hk⟩

/-- How the tokens of an item end: at the end of the text, before a `}`, or with a token that ends
an item. -/
def ItemEnd (tokens : List Token) (length : Nat) : Prop :=
  tokens.drop length = [] ∨
    (∃ t ts, tokens.drop length = t :: ts ∧ t.kind = .closes .brace) ∨
    ∃ front last, tokens = front ++ last :: tokens.drop length ∧
      (last.kind = .semicolon ∨ last.kind = .closes .brace)

theorem ItemEnd.cons {tokens : List Token} {length : Nat} (h : ItemEnd tokens length) (t : Token) :
    ItemEnd (t :: tokens) (length + 1) := by
  rcases h with hnil | hbrace | ⟨front, last, hrest, hlast⟩
  · exact Or.inl hnil
  · exact Or.inr (Or.inl hbrace)
  · refine Or.inr (Or.inr ⟨t :: front, last, ?_, hlast⟩)
    rw [List.drop_succ_cons, List.cons_append, ← hrest]

theorem itemEnd_itemLength (depth : Nat) (tokens : List Token) :
    ItemEnd tokens (itemLength depth tokens) := by
  induction tokens generalizing depth with
  | nil => exact Or.inl rfl
  | cons t ts ih =>
    have hlast (h : t.kind = .semicolon ∨ t.kind = .closes .brace) : ItemEnd (t :: ts) 1 :=
      Or.inr (Or.inr ⟨[], t, rfl, h⟩)
    unfold itemLength
    split
    next hk =>
      split
      · exact hlast (Or.inl hk)
      · exact (ih depth).cons t
    next => exact (ih (depth + 1)).cons t
    next hk =>
      split
      · exact Or.inr (Or.inl ⟨t, ts, rfl, hk⟩)
      · exact hlast (Or.inr hk)
      · exact (ih _).cons t
    next => exact (ih (depth - 1)).cons t
    next => exact (ih depth).cons t

theorem skipItem_cases (c : Cursor) :
    c.skipItem.rest = [] ∨ c.skipItem.kind? = some (.closes .brace) ∨ c.Stops c.skipItem := by
  have h := itemEnd_itemLength 0 c.rest
  unfold Stops skipItem
  rw [rest_skip]
  rcases h with hnil | ⟨t, ts, hrest, ht⟩ | hstop
  · exact Or.inl hnil
  · exact Or.inr (Or.inl (by simp [kind?, hrest, ht]))
  · exact Or.inr (Or.inr hstop)

end Cursor

namespace Reading

variable {r s : Reading}

theorem stops_expect {kind : Kind} (hk : kind = .semicolon ∨ kind = .closes .brace)
    (h : (r.expect kind).faults = []) : r.cursor.Stops (r.expect kind).cursor := by
  obtain ⟨hs, heq⟩ := sees_of_faults_expect h
  rw [heq]
  exact Cursor.stops_advance (Cursor.kind?_of_sees hs) hk

theorem stops_block {α : Type} {name : Block} {part : Reading → Option α × Reading}
    {progress : ∀ {r : Reading} {kind : Kind}, r.kind? = some kind → kind ≠ .closes .brace →
      r.Passes (part r).2} (h : (r.block name part progress).2.faults = []) :
    r.cursor.Stops (r.block name part progress).2.cursor := by
  fun_induction block name part progress r with
  | case1 r => exact absurd h (faults_report_ne_nil _ _)
  | case2 r hk => exact Cursor.stops_advance hk (Or.inr rfl)
  | case3 r kind hk hc _ _ ih => exact (progress hk hc).reaches.trans_stops (ih h)

theorem stops_enumMembers (h : r.enumMembers.2.faults = []) :
    r.cursor.Stops r.enumMembers.2.cursor := by
  fun_induction enumMembers r with
  | case1 r => exact absurd h (faults_report_ne_nil _ _)
  | case2 r hk => exact Cursor.stops_advance hk (Or.inr rfl)
  | case3 r kind hk _ _ _ _ ih =>
    exact (passes_enumMember hk).reaches.trans ((Cursor.reaches_advance _).trans (.refl _))
      |>.trans_stops (ih h)
  | case4 r kind hk =>
    exact (passes_enumMember hk).reaches.trans_stops (stops_expect (Or.inr rfl) h)

/-- A block that is read without an error has a name and its brace. -/
theorem blockName_of_clean {role : NameRole} (h : (r.blockName role).2.faults = []) :
    ∃ (name : Name) (s : Reading), r.blockName role = (some name, s.advance) ∧
      r.cursor.name? = some (name, s.cursor) ∧ s.kind? = some (.opens .brace) := by
  unfold blockName expectName at h ⊢
  cases hn : r.cursor.name? with
  | none => simp [hn, skipItem, goTo] at h
  | some found =>
    obtain ⟨name, c⟩ := found
    simp only [hn] at h ⊢
    split at h
    next hs => exact ⟨name, r.goTo c, if_pos hs, rfl, Cursor.kind?_of_sees hs⟩
    next => exact absurd h (faults_recover_ne_nil _ _)

theorem stops_struct (h : r.struct.2.faults = []) : r.cursor.Stops r.struct.2.cursor := by
  unfold struct at h ⊢
  have hname := reaches_blockName r.advance .struct
  split at h
  next s hs =>
    obtain ⟨name, t, ht, -⟩ := blockName_of_clean (by rwa [hs])
    simp [hs] at ht
  next name s hs =>
    rw [hs] at hname
    exact (r.cursor.reaches_advance.trans hname).trans_stops (stops_block h)

theorem stops_enum (h : r.enum.2.faults = []) : r.cursor.Stops r.enum.2.cursor := by
  unfold enum at h ⊢
  have hname := reaches_blockName r.advance .enum
  split at h
  next s hs =>
    obtain ⟨name, t, ht, -⟩ := blockName_of_clean (by rwa [hs])
    simp [hs] at ht
  next name s hs =>
    rw [hs] at hname
    exact (r.cursor.reaches_advance.trans hname).trans_stops (stops_enumMembers h)

theorem enterBody_of_clean (h : r.enterBody.2.faults = []) :
    r.kind? = some (.opens .brace) ∧ r.enterBody = (true, r.advance) := by
  unfold enterBody at h ⊢
  split at h
  next hs => exact ⟨Cursor.kind?_of_sees hs, by rw [if_pos hs]⟩
  next =>
    have hreport := faults_report_ne_nil r .expectedContractBody
    dsimp only at h
    unfold skipKind at h
    split at h
    · exact absurd h hreport
    · split at h <;> exact absurd h hreport

/-- A contract that is read without an error has a name, and its body follows its header. -/
theorem contract_of_clean (h : r.contract.2.faults = []) :
    ∃ (c : Contract) (named : Reading), r.contract.1 = some c ∧
      r.atKind.contractKind?.isSome = true ∧
      r.atKind.cursor.advance.name? = some (c.name, named.cursor) ∧
      named.baseList.2.kind? = some (.opens .brace) ∧ named.baseList.2.faults = [] ∧
      r.contract.2 = (named.baseList.2.advance.block .contractBody member passes_member).2 := by
  rw [contract_eq_contractFrom] at h ⊢
  unfold contractFrom expectName at h ⊢
  split at h
  next => exact absurd h (faults_recover_ne_nil _ _)
  next kind hkind =>
    dsimp only at h ⊢
    split at h
    next s hs =>
      split at hs
      next => simp at hs
      next => cases hs; exact absurd h (faults_report_ne_nil _ _)
    next name named hs =>
      have hn : r.atKind.cursor.advance.name? = some (name, named.cursor) := by
        split at hs
        next hn => cases hs; exact hn
        next => simp at hs
      split at h
      next s hbody =>
        have hclean := enterBody_of_clean (r := named.baseList.2) (by rw [hbody]; exact h)
        simp [hbody] at hclean
      next s hbody =>
        have hs' : s.faults = [] := (runs_block (by simp) runs_member s).faults_eq_nil h
        obtain ⟨hbrace, heq⟩ :=
          enterBody_of_clean (r := named.baseList.2) (by rw [hbody]; exact hs')
        obtain rfl : s = named.baseList.2.advance := by simpa [hbody] using heq
        exact ⟨_, named, rfl, by simp [hkind], hn, hbrace, hs', rfl⟩

theorem stops_contract (h : r.contract.2.faults = []) : r.cursor.Stops r.contract.2.cursor := by
  obtain ⟨c, named, -, -, hn, -, -, heq⟩ := contract_of_clean h
  rw [heq] at h ⊢
  have hnamed := r.reaches_atKind.trans
    ((Cursor.reaches_advance _).trans (Cursor.passes_of_name? hn).reaches)
  have hbrace := hnamed.trans (named.reaches_baseList.trans (Cursor.reaches_advance _))
  exact hbrace.trans_stops (stops_block h)

theorem stops_fileImport (h : r.fileImport.2.faults = []) :
    r.cursor.Stops r.fileImport.2.cursor := by
  have hend := r.cursor.reaches_advance.trans
    (Cursor.reaches_skipUntil endsImport r.cursor.advance)
  unfold fileImport at h ⊢
  dsimp only at h ⊢
  split at h
  next => exact hend.trans_stops (stops_expect (Or.inl rfl) h)
  next => exact absurd h (faults_reportAt_ne_nil _ _ _)

/-- An item that is read without an error ends with a `;` or a `}`, or nothing but a `}` or the end
of the text follows. -/
theorem stops_item (h : r.item.2.faults = []) :
    r.item.2.cursor.rest = [] ∨ r.item.2.kind? = some (.closes .brace) ∨
      r.cursor.Stops r.item.2.cursor := by
  unfold item at h ⊢
  split at h
  · exact Or.inr (Or.inr (stops_fileImport h))
  · exact Or.inr (Or.inr (stops_contract h))
  · exact Or.inr (Or.inr (stops_contract h))
  · exact Or.inr (Or.inr (stops_contract h))
  · exact Or.inr (Or.inr (stops_contract h))
  · exact Or.inr (Or.inr (stops_struct h))
  · exact Or.inr (Or.inr (stops_enum h))
  · exact absurd h (faults_report_ne_nil _ _)
  · exact r.cursor.skipItem_cases

theorem items_snd {kind : Kind} (h : r.kind? = some kind) : r.items.2 = r.item.2.items.2 := by
  rw [items]
  split
  next hk => simp [hk] at h
  next => rfl

/-- In a walk without errors all items are read without an error. -/
theorem Walks.faults_items {first : Reading} (h : first.Walks r)
    (hclean : first.items.2.faults = []) : r.items.2.faults = [] := by
  induction h with
  | refl => exact hclean
  | item hk _ ih =>
    rw [items_snd hk] at hclean
    exact ih hclean

theorem faults_item_ne_nil (h : r.kind? = some (.closes .brace)) : r.item.2.faults ≠ [] := by
  unfold item
  rw [h]
  exact faults_report_ne_nil _ _

def EndsItems (tokens : List Token) : Prop :=
  tokens = [] ∨ Cursor.EndsItem tokens

/-- The walk comes to places behind the end of an item; a `}` that stands there is reported. -/
theorem endsItems_of_walks {first : Reading} {tokens done : List Token} (h : first.Walks r)
    (hclean : first.items.2.faults = []) (hdone : tokens = done ++ first.cursor.rest)
    (hends : EndsItems done) :
    r.cursor.rest = [] ∨ r.kind? = some (.closes .brace) ∨
      ∃ done, tokens = done ++ r.cursor.rest ∧ EndsItems done := by
  induction h generalizing done with
  | refl r => exact Or.inr (Or.inr ⟨done, hdone, hends⟩)
  | @item first s kind hk hwalk ih =>
    rw [items_snd hk] at hclean
    have hitem : first.item.2.faults = [] := first.item.2.runs_items.faults_eq_nil hclean
    rcases stops_item hitem with hnil | hbrace | ⟨front, last, hrest, hlast⟩
    · cases hwalk with
      | refl => exact Or.inl hnil
      | item hk' => exact absurd hnil (Cursor.rest_ne_nil_of_kind? hk')
    · cases hwalk with
      | refl => exact Or.inr (Or.inl hbrace)
      | item hk' =>
        rw [items_snd hk'] at hclean
        exact absurd ((runs_items _).faults_eq_nil hclean) (faults_item_ne_nil hbrace)
    · have hdone' : tokens = (done ++ front ++ [last]) ++ first.item.2.cursor.rest := by
        rw [hdone, hrest]
        simp
      exact ih hclean hdone' (Or.inr ⟨done ++ front, last, rfl, hlast⟩)

section inside

open Cursor (Fenced Bounded EndsItem blocksAfter)

variable {tail : List Token} {n : Nat}

theorem inside_bases (h : r.cursor.Inside tail n) (hbound : Bounded tail) :
    r.bases.2.cursor.Inside tail n := by
  have hgroup (c : Cursor) (hc : c.Inside tail n) :
      (if c.sees (.opens .paren) then c.skipGroup.2 else c).Inside tail n := by
    split
    · exact hc.skipGroup hbound
    · exact hc
  fun_induction bases r with
  | case1 r => exact h
  | case2 r _ c hc _ hcomma _ _ ih =>
    have hgrouped := hgroup c (h.path? hbound hc)
    exact ih (hgrouped.step hbound (Cursor.kind?_of_sees hcomma) rfl (by simp))
  | case3 r _ c hc => exact hgroup c (h.path? hbound hc)

theorem inside_baseList (h : r.cursor.Inside tail n) (hbound : Bounded tail) :
    r.baseList.2.cursor.Inside tail n := by
  unfold baseList
  split
  next hs => exact inside_bases (h.step hbound (Cursor.kind?_of_sees hs) rfl (by simp)) hbound
  next => exact h

theorem enumMember_of_clean {t : Token} {ts : List Token} (hr : r.cursor.rest = t :: ts)
    (hclean : r.enumMember.2.faults = []) :
    t.kind ≠ .opens .brace ∧ r.enumMember.2.cursor.rest = ts := by
  rw [cursor_enumMember, Cursor.rest_advance, hr]
  refine ⟨?_, rfl⟩
  unfold enumMember at hclean
  split at hclean
  next name c hn =>
    obtain ⟨u, us, hr', hu, -, -⟩ := Cursor.name?_eq_some hn
    obtain ⟨rfl, rfl⟩ := List.cons.inj (hr.symm.trans hr')
    exact (Cursor.isBoundary_of_isName hu).2
  next => exact absurd hclean (faults_report_ne_nil _ _)

/-- An enum without errors is a comma list. -/
theorem closesList_of_clean (h : r.enumMembers.2.faults = []) : ClosesList r.cursor.rest := by
  fun_induction enumMembers r with
  | case1 r => exact absurd h (faults_report_ne_nil _ _)
  | case2 r hk =>
    obtain ⟨t, ts, hr, ht⟩ := Cursor.rest_of_kind? hk
    exact ⟨[], t, ts, hr, trivial, ht⟩
  | case3 r kind hk hc hcomma _ _ ih =>
    obtain ⟨t, ts, hr, rfl⟩ := Cursor.rest_of_kind? hk
    obtain ⟨ho, hrest⟩ := enumMember_of_clean hr
      (r.enumMember.2.advance.runs_enumMembers.faults_eq_nil h)
    obtain ⟨u, us, hr', hu⟩ := Cursor.rest_of_kind? (Cursor.kind?_of_sees hcomma)
    have hlist := ih h
    rw [cursor_advance, Cursor.rest_advance, hr', List.tail_cons] at hlist
    rw [hr, ← hrest, hr']
    exact hlist.cons_comma ho hc hu
  | case4 r kind hk hc hcomma =>
    obtain ⟨t, ts, hr, rfl⟩ := Cursor.rest_of_kind? hk
    obtain ⟨ho, hrest⟩ := enumMember_of_clean hr (((Runs.refl _).expect _).faults_eq_nil h)
    obtain ⟨hs, -⟩ := sees_of_faults_expect h
    obtain ⟨u, us, hr', hu⟩ := Cursor.rest_of_kind? (Cursor.kind?_of_sees hs)
    rw [hr, ← hrest, hr']
    exact ⟨[t], u, us, rfl, ⟨ho, hc⟩, hu⟩

theorem inside_enum_of_clean (h : r.cursor.Inside tail n) (hbound : Bounded tail)
    (hk : r.kind? = some (.keyword .enumKw)) (hclean : r.enum.2.faults = []) :
    r.enum.2.cursor.Inside tail n := by
  have ha := h.step hbound hk rfl (by simp)
  unfold enum at hclean ⊢
  split at hclean
  next s hs =>
    obtain ⟨name, t, ht, -⟩ := blockName_of_clean (by rwa [hs])
    simp [hs] at ht
  next name s hs =>
    have hs' := s.runs_enumMembers.faults_eq_nil hclean
    obtain ⟨_, t, ht, hname, hbrace⟩ := blockName_of_clean (by rwa [hs])
    obtain ⟨-, rfl⟩ : some name = some _ ∧ s = t.advance := Prod.mk.inj (hs.symm.trans ht)
    have hin : t.advance.cursor.Inside tail (n + 1) :=
      ((ha.name? hbound hname).advance_of_rest_ne hbrace (hbound.rest_ne hbrace rfl)).1
    rcases inside_enumMembers hbound hin with ⟨-, hend⟩ | ⟨hlist, -⟩
    · exact hend
    · exact absurd (closesList_of_clean hclean) hlist

theorem inside_struct_of_clean (h : r.cursor.Inside tail n) (hbound : Bounded tail)
    (hk : r.kind? = some (.keyword .structKw)) (hclean : r.struct.2.faults = []) :
    r.struct.2.cursor.Inside tail n := by
  have ha := h.step hbound hk rfl (by simp)
  unfold struct at hclean ⊢
  split at hclean
  next s hs =>
    obtain ⟨name, t, ht, -⟩ := blockName_of_clean (by rwa [hs])
    simp [hs] at ht
  next name s hs =>
    have hs' := (runs_block (by simp) runs_field s).faults_eq_nil hclean
    obtain ⟨_, t, ht, hname, hbrace⟩ := blockName_of_clean (by rwa [hs])
    obtain ⟨-, rfl⟩ : some name = some _ ∧ s = t.advance := Prod.mk.inj (hs.symm.trans ht)
    exact inside_fields (ha.name? hbound hname) hbound hbrace

theorem inside_member_of_clean (h : r.cursor.Inside tail n) (hfence : Fenced tail)
    (hclean : r.member.2.faults = []) : r.member.2.cursor.Inside tail n := by
  by_cases hk : r.kind? = some (.keyword .enumKw)
  · rw [member_of_enum hk] at hclean ⊢
    exact inside_enum_of_clean h hfence.bounded hk hclean
  · exact inside_member_of_ne_enum h hfence hk

theorem block_snd {α : Type} {name : Block} {part : Reading → Option α × Reading}
    {progress : ∀ {r : Reading} {kind : Kind}, r.kind? = some kind → kind ≠ .closes .brace →
      r.Passes (part r).2} {kind : Kind} (hk : r.kind? = some kind) (hc : kind ≠ .closes .brace) :
    (r.block name part progress).2 = ((part r).2.block name part progress).2 := by
  rw [block]
  split
  next hnone => simp [hnone] at hk
  next kind' hk' =>
    obtain rfl : kind = kind' := Option.some.inj (hk.symm.trans hk')
    rw [dif_neg hc]

/-- The members of a contract, from its brace on. -/
theorem inside_members_of_clean (h : r.cursor.Inside tail n) (hbound : Bounded tail)
    (hk : r.kind? = some (.opens .brace))
    (hclean : (r.advance.block .contractBody member passes_member).2.faults = []) :
    (r.advance.block .contractBody member passes_member).2.cursor.Inside tail n := by
  obtain ⟨body, close, post, hr, hbody, hclose, hafter⟩ := h.group hk (hbound.rest_ne hk rfl)
  have hfence : Fenced (close :: post) := ⟨close, post, rfl, hclose⟩
  refine hafter _ (block_rest_of_inside .contractBody member passes_member
    (fun r => (r.block .contractBody member passes_member).2.faults = []) ?_ hclean
    (Cursor.inside_of_nested hr hbody))
  intro r kind hk hc hr
  rw [block_snd hk hc] at hr
  exact ⟨hr, fun n hin =>
    inside_member_of_clean hin hfence ((runs_block (by simp) runs_member _).faults_eq_nil hr)⟩

def startsContract : Kind → Bool
  | .keyword .abstractKw | .keyword .contractKw | .keyword .libraryKw
  | .keyword .interfaceKw => true
  | _ => false

def Opening (tail : List Token) : Prop :=
  ∃ t post, tail = t :: post ∧ startsContract t.kind = true

theorem Opening.bounded (h : Opening tail) : Bounded tail := by
  obtain ⟨t, post, rfl, ht⟩ := h
  refine ⟨t, post, rfl, ?_⟩
  unfold startsContract at ht
  split at ht <;> simp_all [Cursor.isBoundary]

/-- Behind any place before `tail`, the tokens up to `tail` end with an item if there are any. -/
theorem endsItems_ahead {c : Cursor} {tokens before ahead : List Token} (hon : c.On tokens)
    (hsplit : tokens = before ++ tail) (hbefore : EndsItems before)
    (hr : c.rest = ahead ++ tail) : EndsItems ahead := by
  obtain ⟨done, hdone, -⟩ := hon
  have hall : before = done ++ ahead := by
    rw [hsplit, hr, ← List.append_assoc] at hdone
    exact List.append_cancel_right hdone
  rcases List.eq_nil_or_concat ahead with rfl | ⟨left, last, rfl⟩
  · exact Or.inl rfl
  · rcases hbefore with rfl | ⟨front, last', hfront, hlast⟩
    · simp at hall
    · rw [hall, List.concat_eq_append, ← List.append_assoc] at hfront
      obtain ⟨-, hsame⟩ := List.append_inj' hfront rfl
      obtain rfl : last = last' := by simpa using hsame
      exact Or.inr ⟨left, last, List.concat_eq_append, hlast⟩

theorem exists_inside_skipUntil {c : Cursor} {p : Kind → Bool} (h : c.Inside tail n)
    (htail : ∃ t post, tail = t :: post ∧ p t.kind = true) :
    ∃ m, (c.skipUntil p).Inside tail m := by
  obtain ⟨stack, ahead, hr, hnest, -⟩ := h
  obtain ⟨t, post, rfl, ht⟩ := htail
  have hlength : ((ahead ++ t :: post).takeWhile fun t => !p t.kind).length ≤ ahead.length := by
    rw [List.takeWhile_append]
    split
    next => simp [ht]
    next => exact (List.takeWhile_prefix _).length_le
  have hsplit := List.take_append_drop
    ((ahead ++ t :: post).takeWhile fun t => !p t.kind).length ahead
  rw [← hsplit, nest_append] at hnest
  obtain ⟨stack', -, hleft⟩ := Option.bind_eq_some_iff.mp hnest
  refine ⟨_, stack', _, ?_, hleft, rfl⟩
  rw [Cursor.skipUntil, Cursor.rest_skip, hr, List.drop_append_of_le_length hlength]

theorem inside_fileImport_of_clean (h : r.cursor.Inside tail n) (hopen : Opening tail)
    (hk : r.kind? = some (.keyword .importKw)) (hclean : r.fileImport.2.faults = []) :
    ∃ m, r.fileImport.2.cursor.Inside tail m := by
  have ha := h.step hopen.bounded hk rfl (by simp)
  have htail : ∃ t post, tail = t :: post ∧ endsImport t.kind = true := by
    obtain ⟨t, post, rfl, ht⟩ := hopen
    refine ⟨t, post, rfl, ?_⟩
    unfold startsContract at ht
    split at ht <;> simp_all [endsImport, Kind.isKeyword]
  obtain ⟨m, hin⟩ := exists_inside_skipUntil ha htail
  unfold fileImport at hclean ⊢
  dsimp only at hclean ⊢
  split at hclean
  next =>
    obtain ⟨hs, heq⟩ := sees_of_faults_expect hclean
    rw [heq]
    exact ⟨m, hin.step hopen.bounded (Cursor.kind?_of_sees hs) rfl (by simp)⟩
  next => exact absurd hclean (faults_reportAt_ne_nil _ _ _)

theorem inside_contract_of_clean (h : r.cursor.Inside tail n) (hopen : Opening tail)
    (hne : r.cursor.rest ≠ tail) (hends : ∀ ahead, r.cursor.rest = ahead ++ tail → EndsItems ahead)
    (hclean : r.contract.2.faults = []) : r.contract.2.cursor.Inside tail n := by
  obtain ⟨c, named, -, hkind, hn, hbrace, -, heq⟩ := contract_of_clean hclean
  have hbound := hopen.bounded
  have hat : r.atKind.cursor.Inside tail n ∧ r.atKind.cursor.rest ≠ tail := by
    unfold atKind
    split
    next hs =>
      have hk := Cursor.kind?_of_sees hs
      refine ⟨h.advance hk hne (by simp) (by simp), fun hrest => ?_⟩
      obtain ⟨t, ts, hr, ht⟩ := Cursor.rest_of_kind? hk
      obtain rfl : ts = tail := by simpa [hr] using hrest
      rcases hends [t] hr with hnil | ⟨front, last, hfront, hlast⟩
      · simp at hnil
      · obtain ⟨-, hsame⟩ := List.append_inj' (show [] ++ [t] = front ++ [last] from hfront) rfl
        obtain rfl : t = last := by simpa using hsame
        simp [ht] at hlast
    next => exact ⟨h, hne⟩
  have hadvance : r.atKind.cursor.advance.Inside tail n := by
    unfold contractKind? at hkind
    split at hkind
    next hk => exact hat.1.advance hk hat.2 (by simp) (by simp)
    next hk => exact hat.1.advance hk hat.2 (by simp) (by simp)
    next hk => exact hat.1.advance hk hat.2 (by simp) (by simp)
    next => simp at hkind
  rw [heq] at hclean ⊢
  exact inside_members_of_clean (inside_baseList (hadvance.name? hbound hn) hbound) hbound hbrace
    hclean

theorem inside_skipItem_of_ends (h : r.cursor.Inside tail n) (hne : r.cursor.rest ≠ tail)
    (hends : ∀ ahead, r.cursor.rest = ahead ++ tail → EndsItems ahead) :
    r.skipItem.cursor.Inside tail n := by
  obtain ⟨ahead, hr, hstop⟩ := Cursor.Inside.itemStop h
  cases hstop with
  | within item left stack split length_eq nests braces _ =>
    refine ⟨stack, left, ?_, nests, braces⟩
    rw [cursor_skipItem, Cursor.skipItem, length_eq, Cursor.rest_skip, hr, split]
    simp
  | beyond _ _ not_ends =>
    rcases hends ahead hr with rfl | hends
    · exact absurd hr hne
    · exact absurd hends not_ends

/-- An item that is read without an error before `tail` does not run on into `tail`. -/
theorem inside_item_of_clean (h : r.cursor.Inside tail n) (hopen : Opening tail)
    (hne : r.cursor.rest ≠ tail) (hends : ∀ ahead, r.cursor.rest = ahead ++ tail → EndsItems ahead)
    (hclean : r.item.2.faults = []) : ∃ m, r.item.2.cursor.Inside tail m := by
  unfold item at hclean ⊢
  split at hclean
  next hk => exact inside_fileImport_of_clean h hopen hk hclean
  next => exact ⟨n, inside_contract_of_clean h hopen hne hends hclean⟩
  next => exact ⟨n, inside_contract_of_clean h hopen hne hends hclean⟩
  next => exact ⟨n, inside_contract_of_clean h hopen hne hends hclean⟩
  next => exact ⟨n, inside_contract_of_clean h hopen hne hends hclean⟩
  next hk => exact ⟨n, inside_struct_of_clean h hopen.bounded hk hclean⟩
  next hk => exact ⟨n, inside_enum_of_clean h hopen.bounded hk hclean⟩
  next => exact absurd hclean (faults_report_ne_nil _ _)
  next => exact ⟨n, inside_skipItem_of_ends h hne hends⟩

/-- In a text without errors the walk comes to every contract that starts behind an item. -/
theorem exists_walks_of_opening {tokens before : List Token} (hopen : Opening tail)
    (hsplit : tokens = before ++ tail) (hbefore : EndsItems before) (hon : r.cursor.On tokens)
    (h : r.cursor.Inside tail n) (hclean : r.items.2.faults = []) :
    ∃ s, r.Walks s ∧ s.cursor.rest = tail := by
  fun_induction items r generalizing n with
  | case1 r hk =>
    obtain ⟨stack, ahead, hr, -⟩ := h
    obtain ⟨t, post, rfl, -⟩ := hopen
    simp [kind?, Cursor.kind?, hr] at hk
  | case2 r kind hk =>
    rename_i ih
    by_cases hrest : r.cursor.rest = tail
    · exact ⟨r, .refl r, hrest⟩
    · obtain ⟨m, hin⟩ := inside_item_of_clean h hopen hrest
        (fun ahead hr => endsItems_ahead hon hsplit hbefore hr)
        (r.item.2.runs_items.faults_eq_nil hclean)
      obtain ⟨s, hwalk, hs⟩ := ih (hon.reaches (passes_item hk).reaches) hin hclean
      exact ⟨s, .item hk hwalk, hs⟩

end inside

end Reading

/-- The tokens before a contract: an item ends with them, or with all of them but a last
`abstract`. -/
def StartsItem (before : List Token) : Prop :=
  Reading.EndsItems before ∨ ∃ front last, before = front ++ [last] ∧
    last.kind = .keyword .abstractKw ∧ Reading.EndsItems front

namespace Reading

theorem startsItem_of_mem {text : String} (hok : (readOutline text).errors = [])
    {before after : List Token} {keyword name : Token}
    (hsplit : significant text = before ++ keyword :: name :: after) {c : Contract}
    (hc : c ∈ (readOutline text).outline.contracts) (hname : c.name = ⟨name.text, name.range⟩) :
    StartsItem before := by
  obtain ⟨r, hwalk, hcontract⟩ := exists_walks_of_mem_contracts hc
  obtain ⟨front, keyword', name', after', hr, hfront, -, hname', -⟩ :=
    contract_name_split hcontract
  have hclean : (start text).items.2.faults = [] := List.reverse_eq_nil_iff.mp hok
  rcases endsItems_of_walks hwalk hclean (List.nil_append _).symm (Or.inl rfl) with
    hnil | hbrace | ⟨done, hdone, hends⟩
  · simp [hr] at hnil
  · exact absurd hbrace (kind?_ne_of_contract hcontract)
  · -- The name token fixes the place of the contract among the tokens.
    have hleft : significant text = (before ++ [keyword]) ++ name :: after := by simp [hsplit]
    have hright : significant text = (done ++ front ++ [keyword']) ++ name' :: after' := by
      rw [rest_start] at hdone
      rw [hdone, hr]
      simp
    have hrange : name.range.start = name'.range.start := by
      have hsame := hname.symm.trans hname'
      simp_all
    obtain ⟨hsame, -, -⟩ := (ordered_significant text).split_unique hleft hright hrange
    obtain ⟨rfl, -⟩ := List.append_inj' hsame rfl
    rcases hfront with rfl | ⟨t, rfl, ht⟩
    · exact Or.inl (by simpa using hends)
    · exact Or.inr ⟨done, t, rfl, ht, hends⟩

/-- In a text without errors, what starts a contract behind an item is read as one. -/
theorem exists_contract_of_opening {text : String} (hok : (readOutline text).errors = [])
    {before tail : List Token} (hsplit : significant text = before ++ tail)
    (hnested : Nested before) (hbefore : EndsItems before) (hopen : Opening tail) :
    ∃ (r : Reading) (c : Contract), r.cursor.rest = tail ∧ r.contract.1 = some c ∧
      c ∈ (readOutline text).outline.contracts := by
  have hclean : (start text).items.2.faults = [] := List.reverse_eq_nil_iff.mp hok
  obtain ⟨r, hwalk, hrest⟩ := exists_walks_of_opening hopen hsplit hbefore (Cursor.on_start text)
    (Cursor.inside_of_nested hsplit hnested) hclean
  obtain ⟨t, post, rfl, ht⟩ := hopen
  have hk : r.kind? = some t.kind := by simp [kind?, Cursor.kind?, hrest]
  have hitem : r.item = (r.contract.1.map .contract, r.contract.2) := by
    unfold startsContract at ht
    unfold item
    split at ht <;> simp_all
  have hend : r.item.2.faults = [] := by
    have hitems := hwalk.faults_items hclean
    rw [items_snd hk] at hitems
    exact (runs_items _).faults_eq_nil hitems
  obtain ⟨c, -, hc, -⟩ := contract_of_clean (by rwa [hitem] at hend)
  refine ⟨r, c, hrest, hc, Outline.mem_contracts.mpr (mem_items_of_walks hwalk hk ?_)⟩
  rw [hitem, hc, Option.map_some]

end Reading

open Reading in
/-- In a text without errors a contract, library or interface at depth zero is in the outline
exactly if it starts an item, and the contracts of the outline stand in the order of the text. -/
theorem mem_contracts_iff_startsItem (text : String) (hok : (readOutline text).errors = []) :
    ((readOutline text).outline.contracts.Pairwise
        (fun c d => c.name.range.start < d.name.range.start)) ∧
      ∀ before keyword name after, significant text = before ++ keyword :: name :: after →
        Nested before →
        (keyword.kind = .keyword .contractKw ∨ keyword.kind = .keyword .libraryKw ∨
          keyword.kind = .keyword .interfaceKw) →
        ((∃ c ∈ (readOutline text).outline.contracts, c.name = ⟨name.text, name.range⟩) ↔
          StartsItem before) := by
  refine ⟨pairwise_contracts_items (ordered_significant text) (Cursor.on_start text), ?_⟩
  intro before keyword name after hsplit hnested hkind
  constructor
  · rintro ⟨c, hc, hname⟩
    exact startsItem_of_mem hok hsplit hc hname
  · have hopens (t : Token) (post : List Token) (ht : startsContract t.kind = true) :
        Opening (t :: post) := ⟨t, post, rfl, ht⟩
    have hkeyword : startsContract keyword.kind = true ∧ keyword.kind ≠ .keyword .abstractKw := by
      rcases hkind with hk | hk | hk <;> rw [hk] <;> exact ⟨rfl, by simp⟩
    rintro (hends | ⟨front, last, rfl, hlast, hends⟩)
    · obtain ⟨r, c, hrest, hc, hmem⟩ :=
        exists_contract_of_opening hok hsplit hnested hends (hopens _ _ hkeyword.1)
      obtain ⟨front, _, _, _, hr, hfront, -, hname, -⟩ := contract_name_split hc
      rw [hrest] at hr
      rcases hfront with rfl | ⟨t, rfl, ht⟩
      · obtain ⟨-, rfl, -⟩ : _ ∧ name = _ ∧ _ := by simpa using hr
        exact ⟨c, hmem, hname⟩
      · obtain ⟨rfl, -⟩ := List.cons.inj hr
        exact absurd ht hkeyword.2
    · have hsplit' : significant text = front ++ last :: keyword :: name :: after := by
        simpa using hsplit
      have hnested' : Nested front := by
        unfold Nested at hnested ⊢
        rw [nest_append] at hnested
        obtain ⟨stack, hstack, hend⟩ := Option.bind_eq_some_iff.mp hnested
        simpa [nest_cons, hlast, Kind.nest, hstack] using hend
      obtain ⟨r, c, hrest, hc, hmem⟩ :=
        exists_contract_of_opening hok hsplit' hnested' hends (hopens _ _ (by rw [hlast]; rfl))
      obtain ⟨front', _, _, _, hr, hfront, hk, hname, -⟩ := contract_name_split hc
      rw [hrest] at hr
      rcases hfront with rfl | ⟨t, rfl, ht⟩
      · obtain ⟨rfl, -⟩ := List.cons.inj hr
        exact absurd hlast hk
      · obtain ⟨-, -, rfl, -⟩ : _ ∧ _ ∧ name = _ ∧ _ := by simpa using hr
        exact ⟨c, hmem, hname⟩

def threeItems : String :=
  "pragma solidity ^0.8.0; abstract contract A \x7b uint x; \x7d library L \x7b \x7d"

theorem contract_mem_of_threeItems :
    (readOutline threeItems).errors = [] ∧
      ∃ c ∈ (readOutline threeItems).outline.contracts, c.name = ⟨"A", ⟨42, 43⟩⟩ := by
  have hok : (readOutline threeItems).errors = [] := by decide +kernel
  have hiff := (mem_contracts_iff_startsItem threeItems hok).2
    ((significant threeItems).take 7 ++ [⟨.keyword .abstractKw, "abstract", ⟨24, 32⟩⟩])
    ⟨.keyword .contractKw, "contract", ⟨33, 41⟩⟩ ⟨.ident, "A", ⟨42, 43⟩⟩
    ((significant threeItems).drop 10) (by decide +kernel) (by decide +kernel) (Or.inl rfl)
  refine ⟨hok, hiff.mpr (Or.inr ⟨_, _, rfl, rfl, Or.inr ?_⟩)⟩
  exact ⟨(significant threeItems).take 6, ⟨.semicolon, ";", ⟨22, 23⟩⟩, by decide +kernel,
    Or.inl rfl⟩

def openDirective : String :=
  "pragma solidity ^0.8.0 contract C \x7b \x7d"

/-- The contract is part of the directive, and no error says so. -/
theorem contracts_of_openDirective :
    (readOutline openDirective).errors = [] ∧ (readOutline openDirective).outline.contracts = [] ∧
      ∃ before keyword name brace after,
        significant openDirective = before ++ keyword :: name :: brace :: after ∧ Nested before ∧
        keyword.kind = .keyword .contractKw ∧ name.kind.isName = true ∧
        brace.kind = .opens .brace := by
  refine ⟨by decide +kernel, by decide +kernel, (significant openDirective).take 6,
    ⟨.keyword .contractKw, "contract", ⟨23, 31⟩⟩, ⟨.ident, "C", ⟨32, 33⟩⟩,
    ⟨.opens .brace, "\x7b", ⟨34, 35⟩⟩, (significant openDirective).drop 9, ?_, ?_, rfl, rfl, rfl⟩
  · decide +kernel
  · decide +kernel

end SolidityCompass
