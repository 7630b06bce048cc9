import SolidityCompass.Outline.Declaration

/-!
# Contracts

The members of a contract are told apart by their first token; what begins with no keyword is a
state variable. The header of a contract may miss parts and still leave a contract, as long as
its body can be found.
-/

namespace SolidityCompass

namespace Reading

/-- Members that are passed over: modifiers, custom errors and user-defined value types. -/
def isPassedOver (r : Reading) : Bool :=
  r.sees (.keyword .modifierKw) ||
    (r.cursor.seesWord "error" && r.cursor.kindAfter? 1 == some .ident) ||
    (r.cursor.seesWord "type" && r.cursor.kindAfter? 2 == some (.keyword .isKw))

def member (r : Reading) : Option Member × Reading :=
  match r.kind? with
  | some (.keyword .functionKw) | some (.keyword .constructorKw) =>
    (r.function.1.map .function, r.function.2)
  | some (.keyword .eventKw) => (r.event.1.map .event, r.event.2)
  | some (.keyword .structKw) => (r.struct.1.map .struct, r.struct.2)
  | some (.keyword .enumKw) => (r.enum.1.map .enum, r.enum.2)
  | some (.keyword .usingKw) => (r.usingFor.1.map .usingFor, r.usingFor.2)
  | some .semicolon => (none, r.advance)
  | _ =>
    if (r.sees (.keyword .fallbackKw) || r.sees (.keyword .receiveKw)) &&
        r.cursor.kindAfter? 1 == some (.opens .paren) then
      (r.function.1.map .function, r.function.2)
    else if r.isPassedOver then (none, r.skipItem)
    else (r.stateVariable.1.map .variable, r.stateVariable.2)

theorem passes_member {r : Reading} {kind : Kind} (h : r.kind? = some kind)
    (hk : kind ≠ .closes .brace) : r.Passes r.member.2 := by
  have ha : r.Passes r.advance := Cursor.passes_advance_of_kind? h
  unfold member
  split
  · exact ha.trans_reaches r.reaches_function
  · exact ha.trans_reaches r.reaches_function
  · exact ha.trans_reaches r.reaches_event
  · exact ha.trans_reaches r.reaches_struct
  · exact ha.trans_reaches r.reaches_enum
  · exact ha.trans_reaches r.reaches_usingFor
  · exact ha
  · split
    · exact ha.trans_reaches r.reaches_function
    · split
      · exact Cursor.passes_skipItem h hk
      · exact passes_stateVariable h hk

def bases (r : Reading) : List String × Reading :=
  match h : r.cursor.path? with
  | none => ([], r.report .expectedBase)
  | some (base, c) =>
    let c' := if c.sees (.opens .paren) then c.skipGroup.2 else c
    if c'.sees .comma then
      have : (r.goTo c'.advance).cursor.rest.length < r.cursor.rest.length := by
        have hc : c.Reaches c' := by
          unfold c'
          split
          · exact c.reaches_skipGroup
          · exact .refl c
        exact ((Cursor.passes_of_path? h).trans_reaches (hc.trans c'.reaches_advance)).length_lt
      let tail := bases (r.goTo c'.advance)
      (base :: tail.1, tail.2)
    else ([base], r.goTo c')
termination_by r.cursor.rest.length
decreasing_by assumption

theorem reaches_bases (r : Reading) : r.Reaches r.bases.2 := by
  have hgroup (c : Cursor) : c.Reaches (if c.sees (.opens .paren) then c.skipGroup.2 else c) := by
    split
    · exact c.reaches_skipGroup
    · exact .refl c
  fun_induction bases r with
  | case1 r => exact .refl r.cursor
  | case2 r _ c h _ _ _ _ ih =>
    exact (Cursor.passes_of_path? h).reaches.trans
      ((hgroup c).trans ((Cursor.reaches_advance _).trans ih))
  | case3 r _ c h => exact (Cursor.passes_of_path? h).reaches.trans (hgroup c)

def baseList (r : Reading) : List String × Reading :=
  if r.sees (.keyword .isKw) then r.advance.bases else ([], r)

theorem reaches_baseList (r : Reading) : r.Reaches r.baseList.2 := by
  unfold baseList
  split
  · exact r.cursor.reaches_advance.trans (reaches_bases _)
  · exact .refl r.cursor

def opensBody (kind : Kind) : Bool :=
  kind = .opens .brace || kind = .semicolon

/-- Moves into the body of a contract. Without a body in front of the next semicolon there is
none. -/
def enterBody (r : Reading) : Bool × Reading :=
  if r.sees (.opens .brace) then (true, r.advance)
  else
    let s := r.report .expectedContractBody
    let s := s.goTo (s.cursor.skipUntil opensBody)
    if s.sees (.opens .brace) then (true, s.advance) else (false, s.skipKind .semicolon)

theorem reaches_enterBody (r : Reading) : r.Reaches r.enterBody.2 := by
  unfold enterBody
  split
  · exact r.cursor.reaches_advance
  · have hs := Cursor.reaches_skipUntil opensBody (r.report .expectedContractBody).cursor
    dsimp only
    split
    · exact hs.trans (Cursor.reaches_advance _)
    · exact hs.trans (reaches_skipKind _ _)

def contractKind? (r : Reading) : Option ContractKind :=
  match r.kind? with
  | some (.keyword .contractKw) => some .contract
  | some (.keyword .libraryKw) => some .library
  | some (.keyword .interfaceKw) => some .interface
  | _ => none

/-- Reads a contract from its kind on; `start` and `isAbstract` tell what stood before it. -/
def contractFrom (start : Nat) (isAbstract : Bool) (r : Reading) : Option Contract × Reading :=
  match r.contractKind? with
  | none => (none, r.recover .expectedContract)
  | some kind =>
    match r.advance.expectName .contract with
    | (none, s) => (none, s.skipItem)
    | (some name, s) =>
      let bases := s.baseList
      match bases.2.enterBody with
      | (false, s) => (none, s)
      | (true, s) =>
        let members := s.block .contractBody member passes_member
        (some ⟨kind, isAbstract, name, bases.1, members.1, members.2.rangeFrom start⟩, members.2)

theorem reaches_contractFrom (start : Nat) (isAbstract : Bool) (r : Reading) :
    r.Reaches (r.contractFrom start isAbstract).2 := by
  unfold contractFrom
  split
  next => exact r.cursor.reaches_skipItem
  next kind hkind =>
    split
    next s h =>
      exact r.cursor.reaches_advance.trans
        ((reaches_of_expectName h).trans s.cursor.reaches_skipItem)
    next name s h =>
      have hs := r.cursor.reaches_advance.trans
        ((reaches_of_expectName h).trans s.reaches_baseList)
      have hb := hs.trans s.baseList.2.reaches_enterBody
      dsimp only
      split
      next s' h' => rwa [h'] at hb
      next s' h' =>
        rw [h'] at hb
        exact hb.trans (reaches_block _ _ _ _)

theorem passes_contractFrom {start : Nat} {isAbstract : Bool} {r : Reading} {kind : ContractKind}
    (h : r.contractKind? = some kind) : r.Passes (r.contractFrom start isAbstract).2 := by
  have hk : ∃ k, r.kind? = some k := by
    cases hr : r.kind? with
    | none => simp [contractKind?, hr] at h
    | some k => exact ⟨k, rfl⟩
  obtain ⟨k, hk⟩ := hk
  have ha : r.Passes r.advance := Cursor.passes_advance_of_kind? hk
  unfold contractFrom
  rw [h]
  dsimp only
  split
  next s hs => exact ha.trans_reaches ((reaches_of_expectName hs).trans s.cursor.reaches_skipItem)
  next name s hs =>
    have hb := ha.trans_reaches ((reaches_of_expectName hs).trans
      (s.reaches_baseList.trans s.baseList.2.reaches_enterBody))
    split
    next s' h' => rwa [h'] at hb
    next s' h' =>
      rw [h'] at hb
      exact hb.trans_reaches (reaches_block _ _ _ _)

def contract (r : Reading) : Option Contract × Reading :=
  if r.sees (.keyword .abstractKw) then r.advance.contractFrom r.here.start true
  else r.contractFrom r.here.start false

end Reading

end SolidityCompass
