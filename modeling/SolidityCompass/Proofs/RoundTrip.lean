import SolidityCompass.Proofs.PrintedMembers

/-!
# Reading printed outlines

Reading undoes printing: the text of a canonical outline is read without an error, and the
outline that is found differs from the printed one in the places of its parts only.
-/

namespace SolidityCompass

open Spelling

namespace Reading

variable {r : Reading} {after : List Spelling}

theorem bases_of_path {base : String} {c : Cursor} (h : r.cursor.path? = some (base, c))
    (hparen : c.sees (.opens .paren) = false) :
    r.bases = if c.sees .comma then
      (base :: (r.goTo c.advance).bases.1, (r.goTo c.advance).bases.2)
    else ([base], r.goTo c) := by
  rw [bases]
  split
  next hnone => simp [hnone] at h
  next other d hother =>
    obtain ⟨rfl, rfl⟩ := Prod.mk.inj (Option.some.inj (hother.symm.trans h))
    simp [hparen]

theorem bases_of_spelled {names : List String} (hne : names ≠ [])
    (h : r.cursor.spelled =
      commas (names.map fun base => dotted (pathWords base)) ++ opening .brace :: after) :
    r.bases.1 = names ∧ r.bases.2.cursor.spelled = opening .brace :: after ∧
      r.bases.2.faults = r.faults := by
  induction names generalizing r with
  | nil => exact absurd rfl hne
  | cons base names ih =>
    cases names with
    | nil =>
      rw [List.map_singleton, commas, List.intercalate_singleton] at h
      obtain ⟨d, hd, hrest⟩ := Cursor.path?_of_dotted h (by simp [opening])
      have hparen : d.sees (.opens .paren) = false :=
        Cursor.not_sees_of_spelled hrest (by simp [opening])
      have hcomma : d.sees .comma = false := Cursor.not_sees_of_spelled hrest (by simp [opening])
      rw [bases_of_path hd hparen, hcomma]
      exact ⟨rfl, hrest, rfl⟩
    | cons next names =>
      rw [List.map_cons, List.map_cons, commas_cons_cons, List.append_assoc, List.cons_append] at h
      obtain ⟨d, hd, hrest⟩ := Cursor.path?_of_dotted h (by simp [comma])
      have hparen : d.sees (.opens .paren) = false :=
        Cursor.not_sees_of_spelled hrest (by simp [comma])
      have hcomma : d.sees .comma = true := Cursor.sees_of_spelled hrest rfl
      obtain ⟨hnames, hspelled, hfaults⟩ := @ih (r.goTo d.advance) (by simp)
        (Cursor.spelled_advance hrest)
      rw [bases_of_path hd hparen, hcomma]
      exact ⟨congrArg (base :: ·) hnames, hspelled, hfaults⟩

theorem baseList_of_spelled {c : Contract}
    (h : r.cursor.spelled = c.basesWords ++ opening .brace :: after) :
    r.baseList.1 = c.bases ∧ r.baseList.2.cursor.spelled = opening .brace :: after ∧
      r.baseList.2.faults = r.faults := by
  unfold Contract.basesWords at h
  split at h
  next hnil =>
    have his : r.sees (.keyword .isKw) = false := Cursor.not_sees_of_spelled h (by simp [opening])
    rw [baseList, his]
    exact ⟨hnil.symm, h, rfl⟩
  next hne =>
    have his : r.sees (.keyword .isKw) = true := Cursor.sees_of_spelled h rfl
    rw [baseList, his]
    exact @bases_of_spelled r.advance _ c.bases hne (Cursor.spelled_advance h)

theorem contractKind?_of_spelled {kind : ContractKind}
    (h : r.cursor.spelled = word kind.keyword :: after) : r.contractKind? = some kind := by
  have hk : r.kind? = some (.keyword kind.keyword) := Cursor.kind?_of_spelled h
  cases kind <;> simp [contractKind?, hk, ContractKind.keyword]

/-- A contract is read back from its kind on. -/
theorem contractFrom_of_spelled {c : Contract} (hc : c.Canonical) (start : Nat)
    (h : r.cursor.spelled = word c.kind.keyword :: ident c.name.text ::
      (c.basesWords ++ opening .brace ::
        (c.members.flatMap Member.words ++ closing .brace :: after))) :
    Finds Contract.erase c r after (r.contractFrom start c.isAbstract) := by
  obtain ⟨-, -, hmembers⟩ := hc
  have hname := Cursor.spelled_advance h
  obtain ⟨name, hfound, htext⟩ := expectName_of_spelled (r := r.advance) .contract hname
  obtain ⟨hbases, hopen, hfaults⟩ :=
    @baseList_of_spelled r.advance.advance _ c (Cursor.spelled_advance hname)
  have henter : r.advance.advance.baseList.2.enterBody =
      (true, r.advance.advance.baseList.2.advance) := by
    have hsees : r.advance.advance.baseList.2.sees (.opens .brace) = true :=
      Cursor.sees_of_spelled hopen rfl
    rw [enterBody, if_pos hsees]
  have hall : FindsAll Member.erase c.members r.advance.advance.baseList.2.advance after
      (r.advance.advance.baseList.2.advance.block .contractBody member passes_member) :=
    block_of_spelled (fun m hm _ _ h => member_of_spelled (hmembers m hm) h)
      (fun m hm => member_first_word (hmembers m hm)) (Cursor.spelled_advance hopen)
  unfold contractFrom
  simp only [contractKind?_of_spelled h, hfound, henter]
  refine ⟨?_, hall.spelled, hall.faults.trans hfaults⟩
  simp [Contract.erase, Name.erase, htext, hbases, hall.values]

theorem contract_of_spelled {c : Contract} (hc : c.Canonical)
    (h : r.cursor.spelled = c.words ++ after) : Finds Contract.erase c r after r.contract := by
  rw [Contract.words, List.append_assoc, List.cons_append, List.cons_append, List.append_assoc,
    List.cons_append, List.append_assoc, List.singleton_append] at h
  cases habstract : c.isAbstract with
  | true =>
    rw [habstract] at h
    have hsees : r.sees (.keyword .abstractKw) = true := Cursor.sees_of_spelled h rfl
    rw [contract, hsees, if_pos rfl, ← habstract]
    have hfound := @contractFrom_of_spelled r.advance _ c hc r.here.start (Cursor.spelled_advance h)
    exact ⟨hfound.value, hfound.spelled, hfound.faults⟩
  | false =>
    rw [habstract] at h
    have hsees : r.sees (.keyword .abstractKw) = false := by
      refine Cursor.not_sees_of_spelled h ?_
      cases c.kind <;> simp [word, ContractKind.keyword]
    rw [contract, hsees, if_neg (by simp), ← habstract]
    exact contractFrom_of_spelled hc _ h

theorem unquote_quoted (path : String) : unquote (quoted path).text = path := by
  simp [unquote, quoted]

theorem fileImport_of_spelled {i : Import} (h : r.cursor.spelled = i.words ++ after) :
    Finds Import.erase i r after r.fileImport := by
  have hliteral := Cursor.spelled_advance h
  have hsemi := Cursor.spelled_advance hliteral
  obtain ⟨t, ts, hr, hk, htext, hts⟩ := Cursor.rest_of_spelled hliteral
  obtain ⟨u, us, rfl, hu, -⟩ := List.map_eq_cons_iff.mp hts
  have huk : u.kind = .semicolon := congrArg Spelling.kind hu
  -- the literal is all that stands between the keyword and the semicolon
  have htake : (r.cursor.advance.rest.takeWhile fun t => !endsImport t.kind) = [t] := by
    rw [hr]
    simp [hk, huk, quoted, endsImport, Kind.isKeyword]
  have hskip : r.cursor.advance.skipUntil endsImport = r.cursor.advance.advance := by
    rw [Cursor.skipUntil, htake]
    rfl
  have hfind : importLiteral? r.cursor.advance = some t := by
    rw [importLiteral?, htake]
    simp [hk, quoted]
  have hend : (r.advance.goTo r.cursor.advance.advance).expect .semicolon = _ :=
    expect_of_spelled hsemi rfl
  unfold fileImport
  simp only [hskip, hfind, hend]
  refine ⟨?_, Cursor.spelled_advance hsemi, rfl⟩
  simp [Import.erase, htext, unquote_quoted]

theorem item_of_contract {c : Contract} (h : r.cursor.spelled = c.words ++ after) :
    r.item = (r.contract.1.map .contract, r.contract.2) := by
  unfold Contract.words at h
  split at h
  next =>
    have hk : r.kind? = some (.keyword .abstractKw) := Cursor.kind?_of_spelled h
    simp [item, hk]
  next =>
    have hk : r.kind? = some (.keyword c.kind.keyword) := Cursor.kind?_of_spelled h
    cases hkind : c.kind <;> simp [item, hk, hkind, ContractKind.keyword]

theorem item_of_spelled {x : Item} (hx : x.Canonical) (h : r.cursor.spelled = x.words ++ after) :
    Finds Item.erase x r after r.item := by
  cases x with
  | fileImport i =>
    have hk : r.kind? = some (.keyword .importKw) := Cursor.kind?_of_spelled h
    simp only [item, hk]
    exact (fileImport_of_spelled h).map Item.fileImport fun _ => rfl
  | contract c =>
    rw [item_of_contract h]
    exact (contract_of_spelled hx h).map Item.contract fun _ => rfl
  | struct s =>
    have hk : r.kind? = some (.keyword .structKw) := Cursor.kind?_of_spelled h
    simp only [item, hk]
    exact (struct_of_spelled hx h).map Item.struct fun _ => rfl
  | enum e =>
    have hk : r.kind? = some (.keyword .enumKw) := Cursor.kind?_of_spelled h
    simp only [item, hk]
    exact (enum_of_spelled h).map Item.enum fun _ => rfl

theorem items_of_item {kind : Kind} (h : r.kind? = some kind) :
    r.items = (r.item.1.toList ++ r.item.2.items.1, r.item.2.items.2) := by
  rw [items]
  split
  next hnone => simp [hnone] at h
  next => rfl

theorem items_of_end (h : r.cursor.spelled = []) : r.items = ([], r) := by
  have hk : r.kind? = none := by
    have hrest : r.cursor.rest = [] := List.map_eq_nil_iff.mp h
    simp [kind?, Cursor.kind?, hrest]
  rw [items]
  split
  next => rfl
  next kind hkind => simp [hk] at hkind

theorem item_words_ne_nil (x : Item) : x.words ≠ [] := by
  cases x <;> simp [Item.words, Import.words, Contract.words, Struct.words, Enum.words]

/-- Item by item, the whole list is read back and nothing is left. -/
theorem items_of_spelled {xs : List Item} (hxs : ∀ x ∈ xs, x.Canonical)
    (h : r.cursor.spelled = xs.flatMap Item.words) : FindsAll Item.erase xs r [] r.items := by
  induction xs generalizing r with
  | nil =>
    rw [items_of_end h]
    exact ⟨rfl, h, rfl⟩
  | cons x xs ih =>
    rw [List.flatMap_cons] at h
    have hfound := item_of_spelled (hxs x (by simp)) h
    have htail := ih (fun y hy => hxs y (by simp [hy])) hfound.spelled
    obtain ⟨w, words, hwords⟩ := List.exists_cons_of_ne_nil (item_words_ne_nil x)
    rw [hwords, List.cons_append] at h
    have hk : r.kind? = some w.kind := Cursor.kind?_of_spelled h
    rw [items_of_item hk]
    refine ⟨?_, htail.spelled, htail.faults.trans hfound.faults⟩
    rw [List.map_append, hfound.map_toList, htail.values]
    rfl

/-- Before a rendered text lie its words, and none of its characters is stray. -/
theorem start_render {words : List Spelling} (h : ∀ w ∈ words, w.Lexes) :
    (start (render words)).cursor.spelled = words ∧ (start (render words)).faults = [] := by
  obtain ⟨hwords, herror⟩ := readsAs_render h 0
  refine ⟨hwords, ?_⟩
  have hstrays : (tokenize (render words)).filter (fun t => t.kind = .error) = [] := by
    rw [List.filter_eq_nil_iff]
    intro t ht
    simpa using herror t ht
  simp [start, hstrays]

end Reading

/-- Reading undoes printing but for the places. -/
theorem readOutline_print {outline : Outline} (h : outline.Canonical) :
    (readOutline outline.print).errors = [] ∧
      (readOutline outline.print).outline.erase = outline.erase := by
  obtain ⟨hspelled, hfaults⟩ := Reading.start_render (Outline.lexes_words h)
  have hfound := Reading.items_of_spelled h hspelled
  refine ⟨?_, congrArg Outline.mk hfound.values⟩
  have hnone : ((Reading.start outline.print).items).2.faults = [] := hfound.faults.trans hfaults
  simp [readOutline, hnone]

def vaultOutline : Outline :=
  let name (text : String) : Name := ⟨text, .empty 0⟩
  let range : ByteRange := .empty 0
  let uint : TypeName := .named "uint256"
  let nested : TypeName := .mapping (.named "address payable")
    (.array (.mapping (.named "Lib.Key") (.array .function (some "0x1F"))) none)
  ⟨[.fileImport ⟨"./Owned.sol", range, range⟩,
    .struct ⟨name "Entry", [⟨nested, name "slots"⟩, ⟨.array .function (some "N"), name "hooks"⟩],
      range⟩,
    .enum ⟨name "Phase", [name "Open", name "Closed"], range⟩,
    .contract ⟨.interface, false, name "Reader", [],
      [.function ⟨.function, name "read", [⟨uint, none, some (name "at"), range⟩],
        [⟨.function, none, none, range⟩, ⟨.named "bytes", some .memory, none, range⟩], none,
        range⟩], range⟩,
    .contract ⟨.contract, true, name "Vault", ["Owned", "Lib.Base"],
      [.variable ⟨nested, name "balances", range⟩,
        .variable ⟨.array (.array uint (some "4")) none, name "grid", range⟩,
        .usingFor ⟨"Lib.Math", none, range⟩,
        .usingFor ⟨"Hooks", some (.array .function none), range⟩,
        .event ⟨name "Paid", [⟨uint, none, none, range⟩, ⟨.named "address", none,
          some (name "to"), range⟩], range⟩,
        .struct ⟨name "Empty", [], range⟩,
        .enum ⟨name "Never", [], range⟩,
        .function ⟨.constructor, name "constructor", [], [], some ⟨range, []⟩, range⟩,
        .function ⟨.fallback, name "fallback", [⟨.named "bytes", some .calldata,
          some (name "input"), range⟩], [], none, range⟩,
        .function ⟨.receive, name "receive", [], [],
          some ⟨range, [⟨nested, name "all", range⟩,
            ⟨.named "address payable", name "payer", range⟩,
            ⟨.array (.named "Lib.Key") none, name "keys", range⟩]⟩, range⟩], range⟩]⟩

theorem readOutline_print_of_vault :
    vaultOutline.Canonical ∧ (readOutline vaultOutline.print).errors = [] ∧
      (readOutline vaultOutline.print).outline.erase = vaultOutline.erase :=
  ⟨by decide +kernel, readOutline_print (by decide +kernel)⟩

end SolidityCompass
