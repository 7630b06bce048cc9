import SolidityCompass.Proofs.Depth
import SolidityCompass.Proofs.TokenOrder

/-!
# The walk over the items of a text

Items are read one after the other. `Reading.Walks` relates a reading to the readings at which
the items after it start, and a contract of the outline is one that was read at such a place.
`Reading.body?` is the reading behind the brace that opens the body of a contract.
-/

namespace SolidityCompass

theorem Outline.mem_contracts {outline : Outline} {c : Contract} :
    c ∈ outline.contracts ↔ Item.contract c ∈ outline.items := by
  unfold Outline.contracts
  rw [List.mem_filterMap]
  constructor
  · rintro ⟨x, hx, hc⟩
    cases x <;> simp_all
  · intro h
    exact ⟨_, h, rfl⟩

namespace Reading

inductive Walks : Reading → Reading → Prop
  | refl (r : Reading) : Walks r r
  | item {r s : Reading} {kind : Kind} (h : r.kind? = some kind) (hs : Walks r.item.2 s) :
    Walks r s

theorem Walks.reaches {r s : Reading} (h : r.Walks s) : r.Reaches s := by
  induction h with
  | refl r => exact .refl r.cursor
  | item hk _ ih => exact (passes_item hk).reaches.trans ih

theorem Walks.on {text : String} {r : Reading} (h : (start text).Walks r) :
    r.cursor.On (significant text) :=
  (Cursor.on_start text).reaches h.reaches

/-- What the walk finds was read at one of the places it comes to. -/
theorem exists_walks_of_mem_items {r : Reading} {x : Item} (h : x ∈ r.items.1) :
    ∃ s, r.Walks s ∧ s.item.1 = some x := by
  fun_induction items r with
  | case1 => simp at h
  | case2 r kind hk _ _ ih =>
    rcases List.mem_append.mp h with hx | hx
    · exact ⟨r, .refl r, Option.mem_toList.mp hx⟩
    · obtain ⟨s, hs, hitem⟩ := ih hx
      exact ⟨s, .item hk hs, hitem⟩

theorem mem_items_of_walks {r s : Reading} {x : Item} {kind : Kind} (h : r.Walks s)
    (hk : s.kind? = some kind) (hx : s.item.1 = some x) : x ∈ r.items.1 := by
  induction h with
  | refl r =>
    rw [items]
    split
    next hnone => simp [hnone] at hk
    next => simp [hx]
  | @item r s kind' hk' _ ih =>
    rw [items]
    split
    next hnone => simp [hnone] at hk'
    next => exact List.mem_append_right _ (ih hk hx)

theorem item_eq_contract {r : Reading} {c : Contract} (h : r.item.1 = some (.contract c)) :
    r.item = (some (.contract c), r.contract.2) ∧ r.contract.1 = some c := by
  have hitem : r.item = (r.contract.1.map .contract, r.contract.2) := by
    unfold item at h ⊢
    split at h <;> simp_all
  rw [hitem] at h
  obtain ⟨c', hc', heq⟩ := Option.map_eq_some_iff.mp h
  rw [Item.contract.inj heq] at hc'
  exact ⟨by rw [hitem, hc', Option.map_some], hc'⟩

theorem struct_eq_of_item {r : Reading} {s : Struct} (h : r.item.1 = some (.struct s)) :
    r.struct.1 = some s := by
  unfold item at h
  split at h <;> simp_all

theorem exists_walks_of_mem_contracts {text : String} {c : Contract}
    (h : c ∈ (readOutline text).outline.contracts) :
    ∃ r, (start text).Walks r ∧ r.contract.1 = some c := by
  obtain ⟨r, hr, hitem⟩ := exists_walks_of_mem_items (Outline.mem_contracts.mp h)
  exact ⟨r, hr, (item_eq_contract hitem).2⟩

def atKind (r : Reading) : Reading :=
  if r.sees (.keyword .abstractKw) then r.advance else r

theorem reaches_atKind (r : Reading) : r.Reaches r.atKind := by
  unfold atKind
  split
  · exact r.cursor.reaches_advance
  · exact .refl r.cursor

theorem contract_eq_contractFrom (r : Reading) :
    r.contract = r.atKind.contractFrom r.here.start (r.sees (.keyword .abstractKw)) := by
  unfold contract atKind
  split
  next hs => rw [hs]
  next hs => rw [Bool.eq_false_iff.mpr hs]

def body? (r : Reading) : Option Reading :=
  let named := r.atKind.advance.expectName .contract
  if r.atKind.contractKind?.isSome && named.1.isSome && named.2.baseList.2.enterBody.1 then
    some named.2.baseList.2.enterBody.2
  else none

theorem exists_brace_of_enterBody {r s : Reading} (h : r.enterBody = (true, s)) :
    ∃ t, s = t.advance ∧ t.kind? = some (.opens .brace) ∧ r.Reaches t := by
  unfold enterBody at h
  split at h
  next hs =>
    cases h
    exact ⟨r, rfl, Cursor.kind?_of_sees hs, .refl r.cursor⟩
  next =>
    dsimp only at h
    split at h
    next hs =>
      cases h
      exact ⟨_, rfl, Cursor.kind?_of_sees hs, Cursor.reaches_skipUntil _ _⟩
    next => cases h

theorem exists_brace_of_body? {r s : Reading} (h : r.body? = some s) :
    ∃ t, s = t.advance ∧ t.kind? = some (.opens .brace) ∧ r.Reaches t := by
  unfold body? at h
  dsimp only at h
  split at h
  next hs =>
    simp only [Bool.and_eq_true] at hs
    obtain ⟨t, ht, hk, hreach⟩ := exists_brace_of_enterBody (Prod.ext hs.2 (Option.some.inj h))
    have hnamed := (reaches_expectName r.atKind.advance .contract).trans (reaches_baseList _)
    have hadvance := r.reaches_atKind.trans (Cursor.reaches_advance _)
    exact ⟨t, ht, hk, hadvance.trans (hnamed.trans hreach)⟩
  next => cases h

/-- A contract is its header and the block behind `body?`. -/
theorem contract_cases {r : Reading} {c : Contract} (h : r.contract.1 = some c) :
    ∃ s named, r.body? = some s ∧ c.members = (s.block .contractBody member passes_member).1 ∧
      r.contract.2 = (s.block .contractBody member passes_member).2 ∧
      c.range.stop = r.contract.2.cursor.passed ∧
      r.atKind.contractKind?.isSome = true ∧
      r.atKind.advance.expectName .contract = (some c.name, named) ∧
      named.Reaches r.contract.2 := by
  rw [contract_eq_contractFrom] at h ⊢
  unfold body?
  unfold contractFrom at h ⊢
  split at h
  next => simp at h
  next kind hkind =>
    split at h
    next => simp at h
    next name s hname =>
      dsimp only at h
      split at h
      next => simp at h
      next t ht =>
        cases h
        have hbody := s.reaches_baseList.trans s.baseList.2.reaches_enterBody
        rw [ht] at hbody
        exact ⟨t, s, by simp [hkind, hname, ht], rfl, by simp [ht], by simp [ht, rangeFrom],
          by simp [hkind], hname, by simpa [ht] using hbody.trans (reaches_block _ _ _ _)⟩

theorem kind?_ne_of_contract {r : Reading} {c : Contract} (h : r.contract.1 = some c) :
    r.kind? ≠ some (.closes .brace) := by
  intro hk
  obtain ⟨-, -, -, -, -, -, hkind, -⟩ := contract_cases h
  have hat : r.atKind = r := by
    unfold atKind
    split
    next hs => simp [sees, Cursor.sees, show r.cursor.kind? = _ from hk] at hs
    next => rfl
  simp [hat, contractKind?, hk] at hkind

/-- The name of a contract is the token behind its kind. -/
theorem contract_name_split {r : Reading} {c : Contract} (h : r.contract.1 = some c) :
    ∃ front keyword name after, r.cursor.rest = front ++ keyword :: name :: after ∧
      (front = [] ∨ ∃ t : Token, front = [t] ∧ t.kind = .keyword .abstractKw) ∧
      keyword.kind ≠ .keyword .abstractKw ∧ c.name = ⟨name.text, name.range⟩ ∧
      r.contract.2.cursor.rest <:+ after := by
  obtain ⟨-, named, -, -, -, -, hkind, hname, m, hend⟩ := contract_cases h
  have hne : r.atKind.cursor.rest ≠ [] := by
    intro hnil
    simp [contractKind?, kind?, Cursor.kind?, hnil] at hkind
  obtain ⟨keyword, ts, hr⟩ := List.exists_cons_of_ne_nil hne
  have hkeyword : keyword.kind ≠ .keyword .abstractKw := by
    intro hk
    simp [contractKind?, kind?, Cursor.kind?, hr, hk] at hkind
  unfold expectName at hname
  split at hname
  next name d hn =>
    obtain ⟨t, after, hr', -, hc, rfl⟩ := Cursor.name?_eq_some hn
    cases hname
    obtain rfl : ts = t :: after := by simpa [hr] using hr'
    have hsuffix : r.contract.2.cursor.rest <:+ after := by
      rw [hend]
      simpa [hr] using List.drop_suffix m after
    unfold atKind at hr
    split at hr
    next hs =>
      obtain ⟨u, us, hu, hk⟩ := Cursor.rest_of_kind? (Cursor.kind?_of_sees hs)
      obtain rfl : us = keyword :: t :: after := by simpa [hu] using hr
      exact ⟨[u], keyword, t, after, hu, Or.inr ⟨u, rfl, hk⟩, hkeyword, hc, hsuffix⟩
    next => exact ⟨[], keyword, t, after, hr, Or.inl rfl, hkeyword, hc, hsuffix⟩
  next => simp at hname

theorem exists_name_of_mem_items {r : Reading} {c : Contract} (h : Item.contract c ∈ r.items.1) :
    ∃ t ∈ r.cursor.rest, t.range = c.name.range := by
  obtain ⟨s, hwalk, hitem⟩ := exists_walks_of_mem_items h
  obtain ⟨front, keyword, name, after, hr, -, -, hc, -⟩ :=
    contract_name_split (item_eq_contract hitem).2
  obtain ⟨m, hm⟩ := hwalk.reaches
  refine ⟨name, List.mem_of_mem_drop (i := m) ?_, by rw [hc]⟩
  rw [← Cursor.rest_skip, ← hm, hr]
  simp

/-- The contracts that a walk finds, in the order of their names. -/
theorem pairwise_contracts_items {r : Reading} {tokens : List Token} (hordered : Ordered tokens)
    (hon : r.cursor.On tokens) :
    (Outline.contracts ⟨r.items.1⟩).Pairwise
      (fun c d => c.name.range.start < d.name.range.start) := by
  fun_induction items r with
  | case1 => exact List.Pairwise.nil
  | case2 r kind hk =>
    rename_i ih
    have hrest := ih (hon.reaches (passes_item hk).reaches)
    unfold Outline.contracts at hrest ⊢
    rw [List.filterMap_append]
    refine List.pairwise_append.mpr ⟨?_, hrest, ?_⟩
    · cases r.item.1 with
      | none => exact List.Pairwise.nil
      | some x => cases x <;> simp
    · intro c hc d hd
      replace hc : c ∈ Outline.contracts ⟨r.item.1.toList⟩ := hc
      replace hd : d ∈ Outline.contracts ⟨r.item.2.items.1⟩ := hd
      have hitem := Option.mem_toList.mp (Outline.mem_contracts.mp hc)
      obtain ⟨t, ht, hrange⟩ := exists_name_of_mem_items (Outline.mem_contracts.mp hd)
      obtain ⟨heq, hcontract⟩ := item_eq_contract hitem
      obtain ⟨front, keyword, name, after, hr, -, -, hname, hsuffix⟩ :=
        contract_name_split hcontract
      obtain ⟨done, hdone, -⟩ := hon
      rw [heq] at ht
      have hsplit : tokens = (done ++ front ++ [keyword]) ++ name :: after := by
        rw [hdone, hr]
        simp
      have hlt := hordered.start_lt_of_split hsplit (hsuffix.mem ht)
      rwa [hname, ← hrange]

end Reading

/-- Among the tokens of a text, `brace` opens the body of the contract and `inside` follows. -/
def Contract.BodyOpens (text : String) (c : Contract) (brace : Token) (inside : List Token) :
    Prop :=
  ∃ r s before, (Reading.start text).Walks r ∧ r.contract.1 = some c ∧ r.body? = some s ∧
    s.cursor.rest = inside ∧ significant text = before ++ brace :: inside

/-- Each contract of an outline has a brace that opens its body. -/
theorem Contract.exists_bodyOpens {text : String} {c : Contract}
    (h : c ∈ (readOutline text).outline.contracts) :
    ∃ brace inside, c.BodyOpens text brace inside ∧ brace.kind = .opens .brace := by
  obtain ⟨r, hr, hc⟩ := Reading.exists_walks_of_mem_contracts h
  obtain ⟨s, -, hs, -⟩ := Reading.contract_cases hc
  obtain ⟨t, rfl, hk, hreach⟩ := Reading.exists_brace_of_body? hs
  obtain ⟨brace, inside, hrest, hbrace⟩ := Cursor.rest_of_kind? hk
  obtain ⟨before, hbefore, -⟩ := hr.on.reaches hreach
  exact ⟨brace, inside, ⟨r, t.advance, before, hr, hc, hs, by simp [hrest], by rw [hbefore, hrest]⟩,
    hbrace⟩

/-- Behind one of its members, the contract is what the block of members reads from `r` on. -/
structure Contract.ReadsOn (c : Contract) (m : Member) (r : Reading) : Prop where
  members : ∃ front, c.members =
    front ++ m :: (r.block .contractBody Reading.member Reading.passes_member).1
  stop : c.range.stop =
    (r.block .contractBody Reading.member Reading.passes_member).2.cursor.passed

end SolidityCompass
