import SolidityCompass.Proofs.Rounds

/-!
# Calls in their order

The calls that a call makes follow on each other. What is consumed between them the reader consumes
by itself: tokens of a kind that it passes over in any number, as `Reader.passesOver` says, and at
most four others. So whatever else a call consumes, the calls in `Call.subcalls` consume, and they
make up all of it in their order.
-/

namespace SolidityCompass

/-- The tokens that a reader passes over by itself, however many there are. -/
def Reader.passesOver : Reader → Token → Bool
  | .fileImport, t => !Reading.endsImport t.kind
  | .contract, t => !Reading.opensBody t.kind
  | .parameter, t => !Reading.endsParameter t.kind
  | .functionType, t =>
    t.kind = .ident && ["external", "internal", "pure", "view", "payable"].contains t.text
  | .arraySuffixes _, t => Cursor.inArrayLength t.kind
  | .path, t => t.kind = .dot || t.kind = .ident
  | .skipGroup, _ | .skipItem, _ => true
  | _, _ => false

/-- The tokens from `c` to `d` are passed over by the reader, but for `n` of them at most. -/
def Reader.Consumes (f : Reader) (n : Nat) (c d : Cursor) : Prop :=
  ∃ m, d = c.skip m ∧ (c.rest.take m).countP (fun t => !f.passesOver t) ≤ n

namespace Reader.Consumes

variable {f : Reader} {k m n : Nat} {c d e : Cursor} {r s : Reading}

theorem refl (c : Cursor) : f.Consumes n c c := ⟨0, rfl, by simp⟩

theorem skip (h : f.Consumes n c d)
    (hskip : (d.rest.take m).countP (fun t => !f.passesOver t) ≤ k) :
    f.Consumes (n + k) c (d.skip m) := by
  obtain ⟨j, rfl, hj⟩ := h
  refine ⟨j + m, Cursor.skip_skip c j m, ?_⟩
  rw [List.take_add, List.countP_append]
  rw [Cursor.rest_skip] at hskip
  exact Nat.add_le_add hj hskip

theorem advance (h : f.Consumes n c d) : f.Consumes (n + 1) c d.advance :=
  h.skip (m := 1) (List.countP_le_length.trans (List.length_take_le 1 _))

theorem stay (h : f.Consumes n c d) : f.Consumes (n + 1) c d := by
  obtain ⟨m, hm, hcount⟩ := h
  exact ⟨m, hm, hcount.trans (Nat.le_succ n)⟩

/-- A token that may be there or not. -/
theorem optional (h : f.Consumes n c d) (p : Prop) [Decidable p] :
    f.Consumes (n + 1) c (if p then d.advance else d) := by
  split
  · exact h.advance
  · exact h.stay

theorem skipWord (h : f.Consumes n c d) (word : String) :
    f.Consumes (n + 1) c (d.skipWord word) :=
  h.optional (d.seesWord word = true)

theorem skipNameBefore (h : f.Consumes n c d) (kind : Kind) :
    f.Consumes (n + 1) c (d.skipNameBefore kind) :=
  h.optional ((d.seesAny Kind.isName && d.kindAfter? 1 == some kind) = true)

theorem skipLocation (h : f.Consumes n c d) : f.Consumes (n + 1) c d.skipLocation :=
  h.optional (d.location?.isSome = true)

theorem eat? {kind : Kind} (h : f.Consumes n c d) (heat : d.eat? kind = some e) :
    f.Consumes (n + 1) c e := by
  unfold Cursor.eat? at heat
  split at heat
  · cases heat
    exact h.advance
  · cases heat

theorem name? {name : Name} (h : f.Consumes n c d) (hname : d.name? = some (name, e)) :
    f.Consumes (n + 1) c e := by
  unfold Cursor.name? at hname
  split at hname
  · cases hname
  · split at hname
    · cases hname
      exact h.advance
    · cases hname

theorem expectName {role : NameRole} {name : Option Name} (h : f.Consumes n c r.cursor)
    (hname : r.expectName role = (name, s)) : f.Consumes (n + 1) c s.cursor := by
  unfold Reading.expectName at hname
  split at hname
  next found d hd =>
    cases hname
    exact h.name? hd
  next =>
    cases hname
    exact h.stay

theorem expect (h : f.Consumes n c r.cursor) (kind : Kind) :
    f.Consumes (n + 1) c (r.expect kind).cursor := by
  unfold Reading.expect
  split
  · exact h.advance
  · exact h.stay

theorem skipKind (h : f.Consumes n c r.cursor) (kind : Kind) :
    f.Consumes (n + 1) c (r.skipKind kind).cursor := by
  unfold Reading.skipKind
  split
  · exact h.advance
  · exact h.stay

theorem pass (h : f.Consumes n c d) (hpass : ∀ t ∈ d.rest.take m, f.passesOver t = true) :
    f.Consumes n c (d.skip m) := by
  refine h.skip (k := 0) ?_
  rw [Nat.le_zero, List.countP_eq_zero]
  intro t ht
  simp [hpass t ht]

theorem of_reaches (h : c.Reaches d) (hpass : ∀ t, f.passesOver t = true) :
    f.Consumes n c d := by
  obtain ⟨m, rfl⟩ := h
  exact (refl c).pass fun t _ => hpass t

theorem takeWhile {p : Token → Bool} (h : f.Consumes n c d)
    (hpass : ∀ t, p t = true → f.passesOver t = true) :
    f.Consumes n c (d.skip (d.rest.takeWhile p).length) := by
  refine h.pass fun t ht => hpass t ?_
  rw [← List.prefix_iff_eq_take.mp (List.takeWhile_prefix p)] at ht
  exact List.mem_takeWhile_imp ht

end Reader.Consumes

namespace Call

open Reading

/-- From one cursor to another, a reader makes the calls one after the other, and consumes little
by itself. No more than four tokens stand in front of a call, as `abstract contract C is` do in front
of the bases of a contract. -/
inductive InOrder (f : Reader) : Cursor → List Call → Cursor → Prop
  | done {c d : Cursor} (h : f.Consumes 4 c d) : InOrder f c [] d
  | cons {c d : Cursor} {x : Call} {ys : List Call} (h : f.Consumes 4 c x.entry.cursor)
    (hs : InOrder f x.exit.cursor ys d) : InOrder f c (x :: ys) d

namespace InOrder

variable {f g : Reader} {c d e : Cursor} {r : Reading} {ys : List Call}

theorem call (h : f.Consumes 4 c r.cursor) (hexit : (exit ⟨g, r⟩).cursor = d)
    (hs : InOrder f d ys e) : InOrder f c (⟨g, r⟩ :: ys) e :=
  .cons h (hexit ▸ hs)

/-- The last call leads to the end. -/
theorem last (h : f.Consumes 4 c r.cursor) (hexit : (exit ⟨g, r⟩).cursor = d) :
    InOrder f c [⟨g, r⟩] d :=
  .call h hexit (.done (.refl d))

end InOrder

variable (r : Reading)

section items

theorem inOrder_items : InOrder .items r.cursor (ofItems r) r.items.2.cursor := by
  unfold ofItems
  split
  next hk =>
    rw [items]
    split
    next => exact .done (.refl _)
    next hk' => simp [hk] at hk'
  next hk => exact .call (.refl _) rfl (.last (.refl _) (by rw [items_snd hk]; rfl))

theorem inOrder_item : InOrder .item r.cursor (ofItem r) r.item.2.cursor := by
  unfold ofItem
  split
  case h_8 hk =>
    have hitem : r.item.2.cursor = r.cursor.advance := by simp [item, hk]
    exact hitem ▸ .done (.advance (.refl _))
  case h_9 =>
    have hitem : r.item = (none, r.skipItem) := by unfold item; split <;> simp_all
    exact .last (.refl _) (by rw [hitem]; rfl)
  all_goals
    rename_i hk
    exact .last (.refl _) (by simp [exit, item, hk])

theorem consumes_fileImport : Reader.fileImport.Consumes 4 r.cursor r.fileImport.2.cursor := by
  have hrun : Reader.fileImport.Consumes 3 r.cursor (r.cursor.advance.skipUntil endsImport) :=
    .takeWhile (.advance (.refl _)) fun t ht => ht
  have hend := Reader.Consumes.expect
    (r := r.advance.goTo (r.cursor.advance.skipUntil endsImport)) hrun .semicolon
  unfold fileImport
  dsimp only
  split <;> exact hend

end items

section contracts

/-- Without a brace in front of it the reader of a contract passes over tokens to find its body. -/
theorem consumes_enterBody {n : Nat} {c : Cursor} (h : Reader.contract.Consumes n c r.cursor) :
    Reader.contract.Consumes (n + 1) c r.enterBody.2.cursor := by
  have hrun : Reader.contract.Consumes n c (r.cursor.skipUntil opensBody) :=
    h.takeWhile fun t ht => ht
  unfold enterBody
  split
  · exact h.advance
  · dsimp only
    split
    · exact hrun.advance
    · exact Reader.Consumes.skipKind
        (r := (r.report .expectedContractBody).goTo (r.cursor.skipUntil opensBody)) hrun .semicolon

theorem consumes_atKind {n : Nat} : Reader.contract.Consumes (n + 1) r.cursor r.atKind.cursor := by
  unfold atKind
  split
  · exact .advance (.refl _)
  · exact .refl _

theorem inOrder_contract : InOrder .contract r.cursor (ofContract r) r.contract.2.cursor := by
  rw [contract_eq_contractFrom]
  unfold ofContract contractFrom
  cases hk : r.atKind.contractKind? with
  | none => exact .last (consumes_atKind r) rfl
  | some kind =>
    dsimp only
    rcases hname : r.atKind.advance.expectName .contract with ⟨_ | name, s⟩
    all_goals
      have hs {n : Nat} : Reader.contract.Consumes (n + 3) r.cursor s.cursor :=
        (consumes_atKind r).advance.expectName hname
    · exact .last hs rfl
    · dsimp only
      cases his : s.sees (.keyword .isKw) with
      | false =>
        have hbase : s.baseList.2.cursor = s.cursor := by simp [baseList, his]
        have hbody := consumes_enterBody s.baseList.2 (n := 3) (hbase ▸ hs)
        generalize s.baseList.2.enterBody = found at hbody ⊢
        obtain ⟨_ | _, t⟩ := found
        · exact .done hbody
        · exact .last hbody rfl
      | true =>
        have hbase : s.baseList = s.advance.bases := by simp [baseList, his]
        refine .call (d := s.baseList.2.cursor) hs.advance (by rw [hbase]; rfl) ?_
        have hbody := consumes_enterBody s.baseList.2 (n := 3) (.refl _)
        generalize s.baseList.2.enterBody = found at hbody ⊢
        obtain ⟨_ | _, t⟩ := found
        · exact .done hbody
        · exact .last hbody rfl

theorem inOrder_bases : InOrder .bases r.cursor (ofBases r) r.bases.2.cursor := by
  unfold ofBases
  rw [bases_eq]
  have hexit : (exit ⟨.path, r⟩).cursor = (r.cursor.path?.map Prod.snd).getD r.cursor := rfl
  rcases hpath : r.cursor.path? with _ | ⟨base, c⟩
  all_goals
    rw [hpath] at hexit
    refine .call (.refl _) hexit ?_
  · exact .done (.refl _)
  · dsimp only
    have hnext : InOrder .bases (behindArguments c)
        (if (behindArguments c).sees .comma then
          [⟨.bases, r.goTo (behindArguments c).advance⟩] else [])
        (if (behindArguments c).sees .comma then
          (base :: (r.goTo (behindArguments c).advance).bases.1,
            (r.goTo (behindArguments c).advance).bases.2)
        else ([base], r.goTo (behindArguments c))).2.cursor := by
      split
      · exact .last (.advance (.refl _)) rfl
      · exact .done (.refl _)
    change InOrder .bases c (_ ++ if (behindArguments c).sees .comma then
      [⟨.bases, r.goTo (behindArguments c).advance⟩] else []) _
    cases hparen : c.sees (.opens .paren) with
    | false =>
      have hbehind : behindArguments c = c := by simp [behindArguments, hparen]
      rw [hbehind] at hnext ⊢
      exact hnext
    | true =>
      have hbehind : behindArguments c = c.skipGroup.2 := by simp [behindArguments, hparen]
      exact .call (.refl _) hbehind.symm hnext

end contracts

section members

theorem inOrder_ofParts {α : Type} {part loop : Reader} {name : Block}
    {read : Reading → Option α × Reading}
    {progress : ∀ {r : Reading} {kind : Kind}, r.kind? = some kind → kind ≠ .closes .brace →
      r.Passes (read r).2} (hpart : ∀ r, exit ⟨part, r⟩ = (read r).2)
    (hloop : ∀ r, exit ⟨loop, r⟩ = (r.block name read progress).2) :
    InOrder loop r.cursor (ofParts part loop r) (exit ⟨loop, r⟩).cursor := by
  unfold ofParts
  rw [hloop]
  cases hk : r.kind? with
  | none =>
    have hend : (r.block name read progress).2.cursor = r.cursor := by
      rw [block]
      split <;> simp_all
    exact hend ▸ .done (.refl _)
  | some kind =>
    dsimp only
    split
    next hbrace =>
      rw [block_eq hk, if_pos hbrace]
      exact .done (.advance (.refl _))
    next hbrace =>
      exact .call (.refl _) rfl (.last (.refl _) (by rw [hloop, hpart, block_snd hk hbrace]))

theorem inOrder_member : InOrder .member r.cursor (ofMember r) r.member.2.cursor := by
  unfold ofMember
  split
  case h_7 hk =>
    have hmember : r.member.2.cursor = r.cursor.advance := by simp [member, hk]
    exact hmember ▸ .done (.advance (.refl _))
  case h_8 =>
    have hmember : r.member = if (r.sees (.keyword .fallbackKw) || r.sees (.keyword .receiveKw)) &&
        r.cursor.kindAfter? 1 == some (.opens .paren) then
          (r.function.1.map .function, r.function.2)
        else if r.isPassedOver then (none, r.skipItem)
        else (r.stateVariable.1.map .variable, r.stateVariable.2) := by
      unfold member
      split <;> simp_all
    rw [hmember]
    split
    · exact .last (.refl _) rfl
    · split
      · exact .last (.refl _) rfl
      · exact .last (.refl _) rfl
  all_goals
    rename_i hk
    exact .last (.refl _) (by simp [exit, member, hk])

theorem inOrder_stateVariable :
    InOrder .stateVariable r.cursor (ofStateVariable r) r.stateVariable.2.cursor := by
  have hexit : (exit ⟨.typeName, r⟩).cursor = r.typeName.2.cursor := rfl
  unfold ofStateVariable stateVariable
  -- The reader and its calls branch on the same result, and the call for it ends where it says.
  generalize r.typeName = found at hexit ⊢
  obtain ⟨_ | type, s⟩ := found
  all_goals refine .call (.refl _) hexit ?_
  · exact .last (.refl _) rfl
  · have hname : (exit ⟨.variableName, s⟩).cursor = s.cursor.variableName.2 := rfl
    dsimp only
    generalize s.cursor.variableName = named at hname ⊢
    obtain ⟨_ | name, c⟩ := named
    all_goals exact .call (.refl _) hname (.last (.refl _) rfl)

theorem inOrder_variableName :
    InOrder .variableName r.cursor (ofVariableName r) r.cursor.variableName.2 := by
  unfold ofVariableName
  rw [Cursor.variableName_eq]
  rcases hname : r.cursor.name? with _ | ⟨name, c⟩
  · exact .done (.refl _)
  · dsimp only
    cases hend : c.seesAny Cursor.endsVariableName with
    | true => exact .done (.name? (.refl _) hname)
    | false =>
      cases hident : r.cursor.sees .ident with
      | false =>
        simp only [show r.sees .ident = false from hident]
        exact .done (.refl _)
      | true =>
        simp only [show r.sees .ident = true from hident]
        cases hparen : r.cursor.advance.sees (.opens .paren) with
        | true =>
          simp only [show r.advance.sees (.opens .paren) = true from hparen]
          exact .call (.advance (.refl _)) rfl (.last (.refl _) rfl)
        | false =>
          simp only [show r.advance.sees (.opens .paren) = false from hparen]
          exact .last (.advance (.refl _)) rfl

theorem inOrder_field : InOrder .field r.cursor (ofField r) r.field.2.cursor := by
  have hexit : (exit ⟨.typeName, r⟩).cursor = r.typeName.2.cursor := rfl
  unfold ofField field
  generalize r.typeName = found at hexit ⊢
  obtain ⟨_ | type, s⟩ := found
  all_goals refine .call (.refl _) hexit ?_
  · exact .last (.refl _) rfl
  · dsimp only
    rcases hname : s.expectName .field with ⟨_ | name, t⟩
    · exact .last (.expectName (.refl _) hname) rfl
    · exact .done (.expect (.expectName (.refl _) hname) _)

/-- A struct or an enum begins with its keyword and its name, and ends with its block. -/
theorem inOrder_ofBlock {f body : Reader} {role : NameRole} {c : Cursor}
    (hnone : (r.advance.blockName role).1 = none → c = (r.advance.blockName role).2.cursor)
    (hsome : (r.advance.blockName role).1.isSome →
      c = (exit ⟨body, (r.advance.blockName role).2⟩).cursor) :
    InOrder f r.cursor (ofBlock role body r) c := by
  unfold blockName at hnone hsome
  unfold ofBlock
  rcases hname : r.advance.expectName role with ⟨_ | name, s⟩
  all_goals
    have hs {n : Nat} : f.Consumes (n + 2) r.cursor s.cursor :=
      .expectName (.advance (.refl r.cursor)) hname
    simp only [hname] at hnone hsome
  · exact .last hs (hnone trivial).symm
  · dsimp only
    split at hnone
    next hbrace =>
      rw [if_pos hbrace] at hsome ⊢
      exact .last hs.advance (hsome rfl).symm
    next hbrace =>
      rw [if_neg hbrace]
      exact .last hs (hnone rfl).symm

theorem inOrder_struct :
    InOrder .struct r.cursor (ofBlock .struct .fields r) r.struct.2.cursor := by
  unfold struct
  refine inOrder_ofBlock r ?_ ?_
  all_goals
    intro h
    split <;> simp_all [exit]

theorem inOrder_enum : InOrder .enum r.cursor (ofBlock .enum .enumMembers r) r.enum.2.cursor := by
  unfold enum
  refine inOrder_ofBlock r ?_ ?_
  all_goals
    intro h
    split <;> simp_all [exit]

theorem inOrder_enumMembers :
    InOrder .enumMembers r.cursor (ofEnumMembers r) r.enumMembers.2.cursor := by
  have hmember {n : Nat} : Reader.enumMembers.Consumes (n + 1) r.cursor r.enumMember.2.cursor := by
    unfold enumMember
    split
    next hname => exact .name? (.refl _) hname
    next => exact .advance (.refl _)
  unfold ofEnumMembers
  cases hk : r.kind? with
  | none =>
    have hend : r.enumMembers.2.cursor = r.cursor := by
      rw [enumMembers]
      split <;> simp_all
    exact hend ▸ .done (.refl _)
  | some kind =>
    rw [enumMembers_eq hk]
    dsimp only
    by_cases hbrace : kind = .closes .brace
    · rw [if_pos hbrace, if_neg (by simp [hbrace])]
      exact .done (.advance (.refl _))
    · cases hcomma : r.enumMember.2.sees .comma with
      | true =>
        rw [if_neg hbrace, if_pos (by simp [hbrace])]
        exact .last hmember.advance rfl
      | false =>
        rw [if_neg hbrace, if_neg (by simp)]
        exact .done (.expect hmember _)

end members

section functions

theorem inOrder_parameterList :
    InOrder .parameterList r.cursor (ofParameterList r) r.parameterList.2.cursor := by
  unfold ofParameterList parameterList
  split
  next => exact .call (.advance (.refl _)) rfl (.done (.expect (.refl _) _))
  next => exact .done (.refl _)

theorem inOrder_parameters :
    InOrder .parameters r.cursor (ofParameters r) r.parameters.2.cursor := by
  unfold ofParameters
  cases hend : r.cursor.rest.isEmpty || r.sees (.closes .paren) with
  | true =>
    rw [parameters, if_pos hend]
    exact .done (.refl _)
  | false =>
    simp only [Bool.or_eq_false_iff] at hend
    rw [parameters_eq hend.1 hend.2]
    refine .call (.refl _) rfl ?_
    rcases hcomma : r.parameter.2.cursor.eat? .comma with _ | c
    · exact .done (.refl _)
    · exact .last (.eat? (.refl _) hcomma) rfl

theorem inOrder_parameter :
    InOrder .parameter r.cursor [⟨.typeName, r⟩] r.parameter.2.cursor := by
  have hexit : (exit ⟨.typeName, r⟩).cursor = r.typeName.2.cursor := rfl
  refine .call (.refl _) hexit ?_
  unfold parameter
  generalize r.typeName = found
  obtain ⟨_ | type, s⟩ := found
  · exact .done (.takeWhile (.refl _) fun t ht => ht)
  · have hwords {n : Nat} : Reader.parameter.Consumes (n + 1) s.cursor
        (s.cursor.skipLocation.skipWords ["indexed"]) :=
      .takeWhile (.skipLocation (.refl _)) fun t ht => by
        simp_all [Reader.passesOver, endsParameter]
    dsimp only
    split
    next name c hname => exact .done (hwords.name? hname)
    next => exact .done hwords

theorem consumes_functionName :
    Reader.function.Consumes 4 r.cursor r.functionName.2.cursor := by
  have hword {n : Nat} : Reader.function.Consumes (n + 1) r.cursor r.advance.cursor :=
    .advance (.refl _)
  unfold functionName
  split
  · exact hword
  · exact hword
  · exact hword
  · split
    · exact hword
    · exact hword.expectName rfl

theorem inOrder_function : InOrder .function r.cursor (ofFunction r) r.function.2.cursor := by
  have hs := consumes_functionName r
  unfold ofFunction function
  generalize r.functionName = found at hs ⊢
  obtain ⟨_ | ⟨kind, name⟩, s⟩ := found
  · exact .last hs rfl
  · have hparams : (exit ⟨.parameterList, s⟩).cursor = s.parameterList.2.cursor := rfl
    dsimp only
    generalize s.parameterList = params at hparams ⊢
    obtain ⟨_ | params, t⟩ := params
    · exact .call hs hparams (.last (.refl _) rfl)
    · refine .call hs hparams (.call (.refl _) rfl ?_)
      dsimp only
      split
      · exact .last (.refl _) rfl
      · exact .done (.expect (.refl _) _)

theorem inOrder_functionHeader :
    InOrder .functionHeader r.cursor (ofFunctionHeader r) (r.functionHeader []).2.cursor := by
  unfold ofFunctionHeader
  rw [functionHeader_eq]
  cases r.kind? with
  | none => exact .done (.refl _)
  | some kind =>
    dsimp only
    split
    next => exact .call (.advance (.refl _)) rfl (.last (.refl _) (by rw [functionHeader_snd]; rfl))
    next =>
      split
      next => exact .call (.refl _) rfl (.last (.refl _) rfl)
      next =>
        split
        next => exact .done (.refl _)
        next => exact .last (.advance (.refl _)) rfl

theorem inOrder_functionBody :
    InOrder .functionBody r.cursor [⟨.walk 0 .fresh, r.advance⟩] r.functionBody.2.cursor := by
  refine .last (.advance (.refl _)) ?_
  unfold functionBody
  dsimp only
  split <;> rfl

theorem inOrder_event : InOrder .event r.cursor (ofEvent r) r.event.2.cursor := by
  unfold ofEvent event
  rcases hname : r.advance.expectName .event with ⟨_ | name, s⟩
  all_goals
    have hs : Reader.event.Consumes 4 r.cursor s.cursor :=
      .expectName (.advance (.refl _)) hname
  · exact .last hs rfl
  · have hparams : (exit ⟨.parameterList, s⟩).cursor = s.parameterList.2.cursor := rfl
    dsimp only
    generalize s.parameterList = params at hparams ⊢
    obtain ⟨_ | params, t⟩ := params
    all_goals refine .call hs hparams ?_
    · exact .last (.refl _) rfl
    · exact .done (.expect (r := t.goTo (t.cursor.skipWord "anonymous"))
        (.skipWord (.refl _) "anonymous") .semicolon)

theorem inOrder_usingFor : InOrder .usingFor r.cursor (ofUsingFor r) r.usingFor.2.cursor := by
  have hend {n : Nat} {c : Cursor} (s : Reading) (h : Reader.usingFor.Consumes n c s.cursor) :
      Reader.usingFor.Consumes (n + 2) c s.usingEnd.cursor :=
    .expect (r := s.goTo (s.cursor.skipWord "global")) (h.skipWord "global") .semicolon
  unfold ofUsingFor usingFor
  cases hbrace : r.advance.sees (.opens .brace) with
  | true => exact .call (.advance (.refl _)) rfl (.last (.refl _) rfl)
  | false =>
    have hexit : (exit ⟨.path, r.advance⟩).cursor =
        (r.advance.cursor.path?.map Prod.snd).getD r.advance.cursor := rfl
    rcases hpath : r.advance.cursor.path? with _ | ⟨library, c⟩
    all_goals
      rw [hpath] at hexit
      refine .call (.advance (.refl _)) hexit ?_
    · exact .last (.refl _) rfl
    · dsimp only
      rcases hfor : c.eat? (.keyword .forKw) with _ | d
      · exact .last (.refl _) rfl
      · have hd {n : Nat} : Reader.usingFor.Consumes (n + 1) c d := .eat? (.refl c) hfor
        dsimp only
        split
        next => exact .done (hend (r.goTo d.advance) hd.advance)
        next =>
          have htype : (exit ⟨.typeName, r.goTo d⟩).cursor = (r.goTo d).typeName.2.cursor := rfl
          generalize (r.goTo d).typeName = found at htype ⊢
          obtain ⟨_ | target, s⟩ := found
          all_goals refine .call hd htype ?_
          · exact .last (.refl _) rfl
          · exact .done (hend s (.refl _))

end functions

section bodies

variable {r} in
/-- The walk over a body begins a round with an attempt to read declarations, where one is due. -/
theorem InOrder.behindDeclarations {f : Reader} {place : Cursor.Place} {ys : List Call} {d : Cursor}
    (hs : InOrder f (r.cursor.declarationsAt place).2 ys d) :
    InOrder f r.cursor ((if place = .fresh then [⟨.declarations, r⟩] else []) ++ ys) d := by
  have hexit : (exit ⟨.declarations, r⟩).cursor = r.cursor.declarations.2 := by
    rw [declarations_eq_tryDeclarations]
    rfl
  unfold Cursor.declarationsAt at hs
  split
  next hplace =>
    rw [if_pos hplace] at hs
    exact .call (.refl _) hexit hs
  next hplace =>
    rw [if_neg hplace] at hs
    exact hs

theorem inOrder_walk (inner : Nat) (place : Cursor.Place) :
    InOrder (.walk inner place) r.cursor (ofWalk inner place r)
      (r.cursor.scanBody inner place).cursor := by
  unfold ofWalk
  refine .behindDeclarations ?_
  dsimp only [cursor_goTo]
  cases hr : (r.cursor.declarationsAt place).2.rest with
  | nil =>
    have hend : (r.cursor.scanBody inner place).cursor = (r.cursor.declarationsAt place).2 := by
      rw [Cursor.scanBody]
      split <;> simp_all
    exact hend ▸ .done (.refl _)
  | cons t ts =>
    rw [Cursor.scanBody_eq rfl hr]
    dsimp only
    split
    next => exact .done (.advance (.refl _))
    next => exact .last (.advance (.refl _)) rfl

theorem inOrder_declarations :
    InOrder .declarations r.cursor (ofDeclarations r) r.cursor.attempt.2 := by
  unfold ofDeclarations Cursor.attempt
  cases hparen : r.cursor.sees (.opens .paren) with
  | true =>
    simp only [show r.sees (.opens .paren) = true from hparen]
    exact .last (.refl _) rfl
  | false =>
    simp only [show r.sees (.opens .paren) = false from hparen]
    exact .last (.refl _) rfl

theorem inOrder_tupleHeads :
    InOrder .tupleHeads r.cursor (ofTupleHeads r) r.cursor.tupleHeads.2 := by
  unfold ofTupleHeads
  split
  next hk => exact .last (.advance (.refl _)) (Cursor.tupleHeads_snd_of_comma hk).symm
  next hk =>
    have hend : r.cursor.tupleHeads.2 = r.cursor.advance := by
      rw [Cursor.tupleHeads]
      split <;> simp_all [kind?]
    exact hend ▸ .done (.advance (.refl _))
  next hcomma hclose =>
    have hexit : (exit ⟨.declarationHead, r⟩).cursor = r.cursor.declarationHead.2 := rfl
    rw [Cursor.tupleHeads_of_head hcomma hclose]
    generalize r.cursor.declarationHead = found at hexit ⊢
    obtain ⟨_ | v, d⟩ := found
    all_goals refine .call (.refl _) hexit ?_
    · exact .done (.refl _)
    · dsimp only
      split
      next => exact .last (.refl _) rfl
      next => exact .done (.refl _)

theorem inOrder_declarationHead :
    InOrder .declarationHead r.cursor (ofDeclarationHead r) r.cursor.declarationHead.2 := by
  have hexit : (exit ⟨.typeName, r⟩).cursor = r.cursor.typeName.2 := rfl
  unfold ofDeclarationHead Cursor.declarationHead
  split
  next =>
    generalize r.cursor.typeName = found at hexit ⊢
    obtain ⟨_ | type, d⟩ := found
    all_goals refine .call (.refl _) hexit ?_
    · exact .done (.refl _)
    · dsimp only
      rcases hname : d.skipLocation.name? with _ | ⟨name, e⟩
      · exact .done (.skipLocation (.refl d))
      · exact .done (.name? (.skipLocation (.refl d)) hname)
  next => exact .done (.refl _)

end bodies

section types

/-- Array brackets follow on the type of the elements. -/
theorem InOrder.suffixes {f : Reader} {c : Cursor} (found : Option TypeName × Cursor) :
    f.Consumes 4 c found.2 →
      InOrder f c (match found with
        | (none, _) => []
        | (some element, d) => [⟨.arraySuffixes element, r.goTo d⟩])
        (Cursor.withSuffixes found).2 := by
  intro h
  obtain ⟨_ | element, d⟩ := found
  · exact .done h
  · exact .last h rfl

theorem seesAny_isName (c : Cursor) : c.seesAny Kind.isName = c.path?.isSome := by
  cases hr : c.rest with
  | nil => simp [Cursor.seesAny, Cursor.kind?, Cursor.path?, Cursor.name?, hr]
  | cons t ts =>
    cases hname : t.kind.isName <;>
      simp [Cursor.seesAny, Cursor.kind?, Cursor.path?, Cursor.name?, hr, hname]

theorem baseType_of_named {c : Cursor} (hmapping : c.kind? ≠ some (.keyword .mappingKw))
    (hfunction : c.kind? ≠ some (.keyword .functionKw)) :
    c.baseType = (c.namedType?.map Prod.fst, (c.namedType?.map Prod.snd).getD c) := by
  unfold Cursor.baseType
  split
  next hk => exact absurd hk hmapping
  next hk => exact absurd hk hfunction
  next => split <;> simp_all

theorem inOrder_typeName : InOrder .typeName r.cursor (ofTypeName r) r.typeName.2.cursor := by
  change InOrder _ _ _ r.cursor.typeName.2
  rw [Cursor.typeName_eq_withSuffixes]
  unfold ofTypeName
  split
  next hk =>
    have hbase : r.cursor.baseType = r.cursor.mappingType := by
      simp [Cursor.baseType, show r.cursor.kind? = _ from hk]
    exact .call (.refl _) (congrArg Prod.snd hbase.symm) (.suffixes r _ (.refl _))
  next hk =>
    have hbase : r.cursor.baseType = r.cursor.functionType := by
      simp [Cursor.baseType, show r.cursor.kind? = _ from hk]
    exact .call (.refl _) (congrArg Prod.snd hbase.symm) (.suffixes r _ (.refl _))
  next hmapping hfunction =>
    have hbase := baseType_of_named hmapping hfunction
    have hexit : (exit ⟨.path, r⟩).cursor = (r.cursor.path?.map Prod.snd).getD r.cursor := rfl
    unfold Cursor.namedType? at hbase
    rw [seesAny_isName]
    rcases hpath : r.cursor.path? with _ | ⟨path, d⟩
    all_goals rw [hpath] at hbase hexit
    · exact .suffixes r _ (by rw [hbase]; exact .refl _)
    · refine .call (.refl _) hexit (.suffixes r _ ?_)
      rw [hbase]
      dsimp only [Option.map_some, Option.getD_some]
      split
      · exact .advance (.refl d)
      · exact .refl d

theorem inOrder_mappingType :
    InOrder .mappingType r.cursor (ofMappingType r) r.cursor.mappingType.2 := by
  unfold ofMappingType Cursor.mappingType
  rcases hopen : r.cursor.advance.eat? (.opens .paren) with _ | c
  · exact .done (.advance (.refl _))
  · have hkey : (exit ⟨.typeName, r.goTo c⟩).cursor = c.typeName.2 := rfl
    dsimp only
    generalize c.typeName = found at hkey ⊢
    obtain ⟨_ | key, d⟩ := found
    all_goals refine .call (.eat? (.advance (.refl _)) hopen) hkey ?_
    · exact .done (.refl _)
    · dsimp only
      rcases harrow : (d.skipNameBefore .fatArrow).eat? .fatArrow with _ | e
      · exact .done (.skipNameBefore (.refl d) _)
      · have hvalue : (exit ⟨.typeName, r.goTo e⟩).cursor = e.typeName.2 := rfl
        dsimp only
        generalize e.typeName = found at hvalue ⊢
        obtain ⟨_ | value, a⟩ := found
        all_goals
          refine .call (.eat? (.skipNameBefore (.refl d) .fatArrow) harrow) hvalue ?_
        · exact .done (.refl _)
        · dsimp only
          rcases hclose : (a.skipNameBefore (.closes .paren)).eat? (.closes .paren) with _ | b
          · exact .done (.skipNameBefore (.refl a) _)
          · exact .done (.eat? (.skipNameBefore (.refl a) (.closes .paren)) hclose)

theorem inOrder_functionType :
    InOrder .functionType r.cursor (ofFunctionType r) r.cursor.functionType.2 := by
  have hexit : (exit ⟨.skipGroup, r.advance⟩).cursor = r.cursor.advance.skipGroup.2 := rfl
  unfold ofFunctionType Cursor.functionType
  generalize r.cursor.advance.skipGroup = group at hexit ⊢
  obtain ⟨_ | _, c⟩ := group
  all_goals refine .call (.advance (.refl _)) hexit ?_
  · exact .done (.refl _)
  · have hwords {n : Nat} : Reader.functionType.Consumes n c
        (c.skipWords ["external", "internal", "pure", "view", "payable"]) :=
      .takeWhile (.refl c) fun t ht => ht
    dsimp only
    rcases hreturns : (c.skipWords ["external", "internal", "pure", "view", "payable"]).eat?
      (.keyword .returnsKw) with _ | d
    · exact .done hwords
    · exact .last (hwords.eat? hreturns) rfl

theorem inOrder_arraySuffixes (element : TypeName) :
    InOrder (.arraySuffixes element) r.cursor (ofArraySuffixes element r)
      (r.cursor.arraySuffixes element).2 := by
  have hlength {n : Nat} : (Reader.arraySuffixes element).Consumes (n + 1) r.cursor
      (r.cursor.advance.skip r.cursor.advance.arrayLength.length) :=
    .takeWhile (.advance (.refl _)) fun t ht => ht
  unfold ofArraySuffixes
  rw [Cursor.arraySuffixes_eq]
  cases hopen : r.cursor.sees (.opens .square) with
  | false =>
    simp only [show r.sees (.opens .square) = false from hopen]
    exact .done (.refl _)
  | true =>
    simp only [show r.sees (.opens .square) = true from hopen]
    rcases hclose : (r.cursor.advance.skip r.cursor.advance.arrayLength.length).eat?
      (.closes .square) with _ | d
    · exact .done hlength
    · exact .last (hlength.eat? hclose) rfl

theorem passesOver_of_mem_segments {tokens : List Token} {t : Token}
    (h : t ∈ tokens.take (2 * (Cursor.segments tokens).length)) :
    Reader.path.passesOver t = true := by
  fun_induction Cursor.segments tokens with
  | case1 point word ts hdot ih =>
    simp only [Bool.and_eq_true, decide_eq_true_eq] at hdot
    rw [List.length_cons, Nat.mul_succ, List.take_succ_cons, List.take_succ_cons] at h
    rcases List.mem_cons.mp h with rfl | h
    · simp [Reader.passesOver, hdot.1]
    · rcases List.mem_cons.mp h with rfl | h
      · simp [Reader.passesOver, hdot.2]
      · exact ih h
  | case2 => simp at h
  | case3 => simp at h

theorem consumes_path : Reader.path.Consumes 4 r.cursor
    ((r.cursor.path?.map Prod.snd).getD r.cursor) := by
  unfold Cursor.path?
  rcases hname : r.cursor.name? with _ | ⟨first, c⟩
  · exact .refl _
  · exact .pass (.name? (.refl _) hname) fun t ht => passesOver_of_mem_segments ht

end types

/-- Where a call stands before it may go back. Only an attempt to read declarations goes back. -/
def furthest : Call → Cursor
  | ⟨.declarations, r⟩ => r.cursor.attempt.2
  | x => x.exit.cursor

theorem exit_eq_furthest_or (x : Call) :
    x.exit.cursor = x.furthest ∨ x.reader = .declarations ∧ x.exit = x.entry := by
  obtain ⟨f, r⟩ := x
  cases f with
  | declarations =>
    cases hread : r.cursor.attempt.1 with
    | none => exact .inr ⟨rfl, by simp [exit, tryDeclarations, hread, goTo]⟩
    | some vs => exact .inl (by simp [exit, tryDeclarations, hread, furthest])
  | _ => exact .inl rfl

/-- What a call consumes is consumed by the calls that it makes, in their order, but for what its
reader consumes by itself. -/
theorem inOrder_subcalls (x : Call) : InOrder x.reader x.entry.cursor x.subcalls x.furthest := by
  obtain ⟨f, r⟩ := x
  cases f with
  | items => exact inOrder_items r
  | item => exact inOrder_item r
  | fileImport => exact .done (consumes_fileImport r)
  | contract => exact inOrder_contract r
  | bases => exact inOrder_bases r
  | contractBody => exact inOrder_ofParts r (fun _ => rfl) (fun _ => rfl)
  | member => exact inOrder_member r
  | stateVariable => exact inOrder_stateVariable r
  | variableName => exact inOrder_variableName r
  | function => exact inOrder_function r
  | functionHeader => exact inOrder_functionHeader r
  | parameterList => exact inOrder_parameterList r
  | parameters => exact inOrder_parameters r
  | parameter => exact inOrder_parameter r
  | functionBody => exact inOrder_functionBody r
  | walk inner place => exact inOrder_walk r inner place
  | declarations => exact inOrder_declarations r
  | tuple => exact .last (.advance (.refl _)) rfl
  | tupleHeads => exact inOrder_tupleHeads r
  | declarationHead => exact inOrder_declarationHead r
  | event => exact inOrder_event r
  | struct => exact inOrder_struct r
  | fields => exact inOrder_ofParts r (fun _ => rfl) (fun _ => rfl)
  | field => exact inOrder_field r
  | enum => exact inOrder_enum r
  | enumMembers => exact inOrder_enumMembers r
  | usingFor => exact inOrder_usingFor r
  | typeName => exact inOrder_typeName r
  | mappingType => exact inOrder_mappingType r
  | functionType => exact inOrder_functionType r
  | arraySuffixes element => exact inOrder_arraySuffixes r element
  | path => exact .done (consumes_path r)
  | skipGroup => exact .done (.of_reaches r.cursor.reaches_skipGroup fun _ => rfl)
  | skipItem => exact .done (.of_reaches r.cursor.reaches_skipItem fun _ => rfl)

end Call

end SolidityCompass
