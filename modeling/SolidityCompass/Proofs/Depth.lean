import Mathlib.Tactic.ByContra
import SolidityCompass.Proofs.Nesting
import SolidityCompass.Proofs.TypeNames

/-!
# Readers keep their depth

Inside a block, a reader stops at the depth of blocks at which it started, whether it finds what
it looks for or gives up half way. Names, paths and groups do so in front of any boundary; all
others in front of the brace that closes the block, at which every one of them stops. A body of
statements ends exactly at its own brace.
-/

namespace SolidityCompass

namespace Cursor

section words

variable {tail : List Token} {n : Nat} {c d : Cursor}

theorem isBoundary_of_isName {kind : Kind} (h : kind.isName = true) :
    isBoundary kind = false ∧ kind ≠ .opens .brace := by
  cases kind with
  | keyword word => cases word <;> simp_all [Kind.isName, Kind.isContextual, isBoundary]
  | _ => simp_all [Kind.isName, Kind.isContextual, isBoundary]

theorem ne_closes_of_isBoundary {kind : Kind} (h : isBoundary kind = false) :
    kind ≠ .closes .brace := by
  rintro rfl
  simp [isBoundary] at h

/-- One token further that neither is a boundary nor opens a block. -/
theorem Inside.step {kind : Kind} (h : c.Inside tail n) (hbound : Bounded tail)
    (hk : c.kind? = some kind) (hb : isBoundary kind = false) (ho : kind ≠ .opens .brace) :
    c.advance.Inside tail n :=
  h.advance hk (hbound.rest_ne hk hb) ho (ne_closes_of_isBoundary hb)

theorem rest_of_kind? {kind : Kind} (h : c.kind? = some kind) :
    ∃ t ts, c.rest = t :: ts ∧ t.kind = kind := by
  cases hr : c.rest with
  | nil => simp [kind?, hr] at h
  | cons t ts => exact ⟨t, ts, rfl, by simpa [kind?, hr] using h⟩

theorem kind?_of_sees {kind : Kind} (h : c.sees kind = true) : c.kind? = some kind := by
  simpa [sees] using h

theorem Inside.eat? {kind : Kind} (h : c.Inside tail n) (hbound : Bounded tail)
    (he : c.eat? kind = some d) (hb : isBoundary kind = false) (ho : kind ≠ .opens .brace) :
    d.Inside tail n := by
  unfold Cursor.eat? at he
  split at he
  next hs =>
    cases he
    exact h.step hbound (kind?_of_sees hs) hb ho
  next => cases he

theorem name?_eq_some {name : Name} (h : c.name? = some (name, d)) :
    ∃ t ts, c.rest = t :: ts ∧ t.kind.isName = true ∧ name = ⟨t.text, t.range⟩ ∧
      d = c.advance := by
  unfold Cursor.name? at h
  cases hr : c.rest with
  | nil => simp [hr] at h
  | cons t ts =>
    simp only [hr, Option.ite_none_right_eq_some, Option.some.injEq, Prod.mk.injEq] at h
    exact ⟨t, ts, rfl, h.1, h.2.1.symm, h.2.2.symm⟩

theorem Inside.name? {name : Name} (h : c.Inside tail n) (hbound : Bounded tail)
    (hn : c.name? = some (name, d)) : d.Inside tail n := by
  obtain ⟨t, ts, hr, hname, -, rfl⟩ := name?_eq_some hn
  obtain ⟨hb, ho⟩ := isBoundary_of_isName hname
  exact h.step hbound (by simp [kind?, hr]) hb ho

theorem Inside.segments (h : c.Inside tail n) (hbound : Bounded tail) :
    (c.skip (2 * (segments c.rest).length)).Inside tail n := by
  generalize hr : c.rest = tokens
  induction tokens using segments.induct generalizing c with
  | case1 point word ts hkinds ih =>
    obtain ⟨hpoint, hword⟩ : point.kind = .dot ∧ word.kind = .ident := by simpa using hkinds
    have hdot : c.kind? = some .dot := by simp [kind?, hr, hpoint]
    have hident : c.advance.kind? = some .ident := by simp [kind?, hr, hword]
    have h₂ := (h.step hbound hdot rfl (by simp)).step hbound hident rfl (by simp)
    have h₃ := ih h₂ (by simp [hr])
    rw [Cursor.segments, if_pos hkinds, List.length_cons, Nat.mul_add, Nat.add_comm]
    rw [← skip_skip]
    exact h₃
  | case2 point word ts hkinds =>
    rw [Cursor.segments, if_neg hkinds]
    exact h
  | case3 tokens hshort =>
    rw [Cursor.segments]
    · exact h
    · exact hshort

theorem Inside.path? {path : String} (h : c.Inside tail n) (hbound : Bounded tail)
    (hp : c.path? = some (path, d)) : d.Inside tail n := by
  obtain ⟨⟨first, e⟩, he, hd⟩ := Option.map_eq_some_iff.mp hp
  cases hd
  exact (h.name? hbound he).segments hbound

end words

section types

variable {tail : List Token} {n : Nat} {c d : Cursor}

theorem Inside.skipUntil {p : Kind → Bool} (h : c.Inside tail n) (hfence : Fenced tail)
    (ho : p (.opens .brace) = true) (hc : p (.closes .brace) = true) :
    (c.skipUntil p).Inside tail n := by
  refine h.skip hfence (braceless_takeWhile fun t ht => ⟨fun hk => ?_, fun hk => ?_⟩)
  · simp [hk, ho] at ht
  · simp [hk, hc] at ht

theorem Inside.skipWords (h : c.Inside tail n) (hfence : Fenced tail) (words : List String) :
    (c.skipWords words).Inside tail n := by
  refine h.skip hfence (braceless_takeWhile fun t ht => ⟨fun hk => ?_, fun hk => ?_⟩)
  · simp [hk] at ht
  · simp [hk] at ht

theorem Inside.skipWord (h : c.Inside tail n) (hfence : Fenced tail) (word : String) :
    (c.skipWord word).Inside tail n := by
  unfold Cursor.skipWord
  split
  next hs =>
    have hk : c.kind? = some .ident := by
      cases hr : c.rest with
      | nil => simp [seesWord, hr] at hs
      | cons t ts =>
        simp only [seesWord, hr, Bool.and_eq_true, decide_eq_true_eq] at hs
        simp [kind?, hr, hs.1]
    exact h.step hfence.bounded hk rfl (by simp)
  next => exact h

theorem Inside.skipNameBefore (h : c.Inside tail n) (hfence : Fenced tail) (kind : Kind) :
    (c.skipNameBefore kind).Inside tail n := by
  unfold Cursor.skipNameBefore
  split
  next hs =>
    simp only [Bool.and_eq_true, seesAny] at hs
    cases hk : c.kind? with
    | none => simp [hk] at hs
    | some kind' =>
      obtain ⟨hb, ho⟩ := isBoundary_of_isName (by simpa [hk] using hs.1)
      exact h.step hfence.bounded hk hb ho
  next => exact h

theorem Inside.skipLocation (h : c.Inside tail n) (hfence : Fenced tail) :
    c.skipLocation.Inside tail n := by
  unfold Cursor.skipLocation location?
  split
  next hk => exact h.step hfence.bounded hk rfl (by simp)
  next hk => exact h.step hfence.bounded hk rfl (by simp)
  next hk => exact h.step hfence.bounded hk rfl (by simp)
  next => exact h

theorem Inside.arraySuffixes (h : c.Inside tail n) (hfence : Fenced tail) (element : TypeName) :
    (Cursor.arraySuffixes element c).2.Inside tail n := by
  have hlength (e : Cursor) (he : e.Inside tail n) :
      (e.skip e.arrayLength.length).Inside tail n := by
    refine he.skip hfence (braceless_takeWhile fun t ht => ⟨fun hk => ?_, fun hk => ?_⟩)
    · simp [hk, inArrayLength] at ht
    · simp [hk, inArrayLength] at ht
  fun_induction Cursor.arraySuffixes element c with
  | case1 element c hOpen length d hClose _ ih =>
    have ha := h.step hfence.bounded (kind?_of_sees hOpen) rfl (by simp)
    exact ih ((hlength _ ha).eat? hfence.bounded hClose rfl (by simp))
  | case2 element c hOpen length _ =>
    exact hlength _ (h.step hfence.bounded (kind?_of_sees hOpen) rfl (by simp))
  | case3 element c _ => exact h

theorem Inside.withSuffixes {found : Option TypeName × Cursor} (h : found.2.Inside tail n)
    (hfence : Fenced tail) : (Cursor.withSuffixes found).2.Inside tail n := by
  unfold Cursor.withSuffixes
  split
  · exact h
  · exact h.arraySuffixes hfence _

theorem Inside.namedType? {type : TypeName} (h : c.Inside tail n) (hfence : Fenced tail)
    (ht : c.namedType? = some (type, d)) : d.Inside tail n := by
  obtain ⟨⟨path, e⟩, he, hd⟩ := Option.map_eq_some_iff.mp ht
  have hpath := h.path? hfence.bounded he
  dsimp only at hd
  split at hd
  next hword =>
    cases hd
    have hskip := hpath.skipWord hfence "payable"
    rwa [Cursor.skipWord, if_pos (by simp_all)] at hskip
  next => cases hd; exact hpath

theorem Inside.functionType (h : c.Inside tail n) (hfence : Fenced tail)
    (hk : c.kind? = some (.keyword .functionKw)) : c.functionType.2.Inside tail n := by
  have hg := (h.step hfence.bounded hk rfl (by simp)).skipGroup hfence.bounded
  unfold Cursor.functionType
  split
  next d hd => simpa [hd] using hg
  next d hd =>
    rw [hd] at hg
    have hw := hg.skipWords hfence ["external", "internal", "pure", "view", "payable"]
    dsimp only
    split
    next => exact hw
    next e he => exact (hw.eat? hfence.bounded he rfl (by simp)).skipGroup hfence.bounded

theorem Inside.typeName (h : c.Inside tail n) (hfence : Fenced tail) :
    c.typeName.2.Inside tail n := by
  -- The key and the value of a mapping are read from cursors with fewer tokens ahead.
  induction hlen : c.rest.length using Nat.strongRecOn generalizing c with
  | _ length ih =>
    subst hlen
    by_cases hm : c.kind? = some (.keyword .mappingKw)
    · rw [typeName_of_mapping hm]
      refine Inside.withSuffixes ?_ hfence
      have hpass := passes_advance_of_kind? hm
      have ha := h.step hfence.bounded hm rfl (by simp)
      unfold mappingType
      split
      next => exact ha
      next c₁ hOpen =>
        have h₁ := ha.eat? hfence.bounded hOpen rfl (by simp)
        have hpass₁ := hpass.trans_reaches (passes_of_eat? hOpen).reaches
        have hkey := ih _ hpass₁.length_lt h₁ rfl
        have hreach := c₁.reaches_typeName
        split
        next d hd => rwa [hd] at hkey
        next key d hd =>
          rw [hd] at hkey hreach
          have hd' := hkey.skipNameBefore hfence .fatArrow
          split
          next => exact hd'
          next c₂ hArrow =>
            have h₂ := hd'.eat? hfence.bounded hArrow rfl (by simp)
            have hpass₂ := hpass₁.trans_reaches (hreach.trans
              ((d.reaches_skipNameBefore _).trans (passes_of_eat? hArrow).reaches))
            have hvalue := ih _ hpass₂.length_lt h₂ rfl
            split
            next e he => rwa [he] at hvalue
            next value e he =>
              rw [he] at hvalue
              have he' := hvalue.skipNameBefore hfence (.closes .paren)
              split
              next => exact he'
              next f hClose => exact he'.eat? hfence.bounded hClose rfl (by simp)
    · by_cases hf : c.kind? = some (.keyword .functionKw)
      · rw [typeName_of_function hf]
        exact (h.functionType hfence hf).withSuffixes hfence
      · cases hn : c.namedType? with
        | none => rw [typeName_of_none hm hf hn]; exact h
        | some found =>
          rw [typeName_of_named hm hf hn]
          exact (h.namedType? hfence hn).arraySuffixes hfence _

end types

section statements

variable {tail : List Token} {n : Nat} {c d : Cursor}

theorem Inside.declarationHead? {v : LocalVariable} (h : c.Inside tail n) (hfence : Fenced tail)
    (hv : c.declarationHead? = some (v, d)) : d.Inside tail n := by
  unfold Cursor.declarationHead? at hv
  split at hv
  next =>
    have ht := h.typeName hfence
    split at hv
    next => cases hv
    next type e he =>
      rw [he] at ht
      obtain ⟨⟨name, f⟩, hf, hd⟩ := Option.map_eq_some_iff.mp hv
      cases hd
      exact (ht.skipLocation hfence).name? hfence.bounded hf
  next => cases hv

theorem Inside.tupleHeads? {vs : List LocalVariable} (h : c.Inside tail n) (hfence : Fenced tail)
    (hv : c.tupleHeads? = some (vs, d)) : d.Inside tail n := by
  fun_induction Cursor.tupleHeads? c generalizing vs d with
  | case1 c hk _ ih => exact ih (h.step hfence.bounded hk rfl (by simp)) hv
  | case2 c hk =>
    cases hv
    exact h.step hfence.bounded hk rfl (by simp)
  | case3 => cases hv
  | case4 c v e he _ _ _ _ ih =>
    obtain ⟨⟨ws, f⟩, hf, hd⟩ := Option.map_eq_some_iff.mp hv
    cases hd
    exact ih (h.declarationHead? hfence he) hf
  | case5 => cases hv

theorem Inside.declarations? {vs : List LocalVariable} (h : c.Inside tail n)
    (hfence : Fenced tail) (hv : c.declarations? = some (vs, d)) : d.Inside tail n := by
  unfold Cursor.declarations? at hv
  split at hv
  next hs =>
    have ha := h.step hfence.bounded (kind?_of_sees hs) rfl (by simp)
    exact ha.tupleHeads? hfence (Option.filter_eq_some_iff.mp hv).1
  next =>
    obtain ⟨⟨v, e⟩, he, hd⟩ := Option.map_eq_some_iff.mp hv
    cases hd
    exact h.declarationHead? hfence (Option.filter_eq_some_iff.mp he).1

theorem Inside.declarationsAt (h : c.Inside tail n) (hfence : Fenced tail) (place : Place) :
    (c.declarationsAt place).2.Inside tail n := by
  unfold Cursor.declarationsAt declarations
  split
  · cases hv : c.declarations? with
    | none => exact h
    | some found => exact h.declarations? hfence (show _ = some (found.1, found.2) from hv)
  · exact h

/-- A body closes at the brace in front of which all blocks opened in it are closed. -/
theorem scanBody_of_inside {close : Token} {post : List Token} (place : Place)
    (hclose : close.kind = .closes .brace) (h : c.Inside (close :: post) n) :
    (scanBody n place c).closed = some close.range.stop ∧
      (scanBody n place c).cursor.rest = post := by
  have hfence : Fenced (close :: post) := ⟨close, post, rfl, hclose⟩
  fun_induction scanBody n place c with
  | case1 n place c hr =>
    obtain ⟨stack, ahead, hahead, _⟩ := h.declarationsAt hfence place
    simp [hr] at hahead
  | case2 n place c t ts hr d hend =>
    obtain ⟨hk, rfl⟩ : t.kind = .closes .brace ∧ n = 0 := by simpa using hend
    have hd := h.declarationsAt hfence place
    have hkind : (c.declarationsAt place).2.kind? = some (.closes .brace) := by
      simp [kind?, hr, hk]
    have htail : (c.declarationsAt place).2.rest = close :: post := by
      by_contra hne
      exact absurd ((hd.advance_of_rest_ne hkind hne).2 rfl) (Nat.lt_irrefl 0)
    rw [hr] at htail
    obtain ⟨rfl, rfl⟩ := List.cons.inj htail
    exact ⟨rfl, by simp [d, hr]⟩
  | case3 n place c t ts hr d hend _ tail ih =>
    have hd := h.declarationsAt hfence place
    have hkind : (c.declarationsAt place).2.kind? = some t.kind := by simp [kind?, hr]
    have hne : (c.declarationsAt place).2.rest ≠ close :: post := by
      intro htail
      have hzero := hd.eq_zero_of_rest_eq htail
      rw [hr] at htail
      obtain ⟨rfl, rfl⟩ := List.cons.inj htail
      simp [hclose, hzero] at hend
    exact ih (hd.advance_of_rest_ne hkind hne).1

theorem Inside.variableName (h : c.Inside tail n) (hfence : Fenced tail) :
    c.variableName.2.Inside tail n := by
  fun_induction Cursor.variableName c with
  | case1 c name d hn _ => exact h.name? hfence.bounded hn
  | case2 c _ _ _ _ hs _ _ ih =>
    have ha := h.step hfence.bounded (kind?_of_sees hs) rfl (by simp)
    exact ih (ha.skipGroup hfence.bounded)
  | case3 c _ _ _ _ hs _ _ ih => exact ih (h.step hfence.bounded (kind?_of_sees hs) rfl (by simp))
  | case4 c => exact h
  | case5 c => exact h

end statements

end Cursor

namespace Reading

open Cursor (Fenced Bounded isBoundary)

section members

variable {tail : List Token} {n : Nat} {r s : Reading}

theorem inside_advance {kind : Kind} (h : r.cursor.Inside tail n) (hfence : Fenced tail)
    (hk : r.kind? = some kind) (hb : isBoundary kind = false) (ho : kind ≠ .opens .brace) :
    r.advance.cursor.Inside tail n :=
  h.step hfence.bounded hk hb ho

theorem inside_expect {kind : Kind} (h : r.cursor.Inside tail n) (hfence : Fenced tail)
    (hb : isBoundary kind = false) (ho : kind ≠ .opens .brace) :
    (r.expect kind).cursor.Inside tail n := by
  unfold expect
  split
  next hs => exact inside_advance h hfence (Cursor.kind?_of_sees hs) hb ho
  next => exact h

theorem inside_expectName (h : r.cursor.Inside tail n) (hbound : Bounded tail)
    (role : NameRole) : (r.expectName role).2.cursor.Inside tail n := by
  unfold expectName
  split
  next name c hn => exact h.name? hbound hn
  next => exact h

theorem inside_of_expectName {role : NameRole} {name : Option Name}
    (h : r.cursor.Inside tail n) (hbound : Bounded tail) (hs : r.expectName role = (name, s)) :
    s.cursor.Inside tail n := by
  simpa [hs] using inside_expectName h hbound role

theorem inside_of_typeName {type : Option TypeName} (h : r.cursor.Inside tail n)
    (hfence : Fenced tail) (hs : r.typeName = (type, s)) : s.cursor.Inside tail n := by
  rw [cursor_of_typeName hs]
  exact h.typeName hfence

theorem inside_parameter (h : r.cursor.Inside tail n) (hfence : Fenced tail) :
    r.parameter.2.cursor.Inside tail n := by
  unfold parameter
  split
  next s hs => exact (inside_of_typeName h hfence hs).skipUntil hfence rfl rfl
  next type s hs =>
    have hw := ((inside_of_typeName h hfence hs).skipLocation hfence).skipWords hfence ["indexed"]
    dsimp only
    split
    next name c hn => exact hw.name? hfence.bounded hn
    next => exact hw

theorem inside_parameters (h : r.cursor.Inside tail n) (hfence : Fenced tail) :
    r.parameters.2.cursor.Inside tail n := by
  fun_induction parameters r with
  | case1 r => exact h
  | case2 r _ c hc _ _ ih =>
    exact ih ((inside_parameter h hfence).eat? hfence.bounded hc rfl (by simp))
  | case3 r => exact inside_parameter h hfence

theorem inside_parameterList (h : r.cursor.Inside tail n) (hfence : Fenced tail) :
    r.parameterList.2.cursor.Inside tail n := by
  unfold parameterList
  split
  next hs =>
    have ha := inside_advance h hfence (Cursor.kind?_of_sees hs) rfl (by simp)
    exact inside_expect (inside_parameters ha hfence) hfence rfl (by simp)
  next => exact h

theorem inside_of_parameterList {params : Option (List Parameter)} (h : r.cursor.Inside tail n)
    (hfence : Fenced tail) (hs : r.parameterList = (params, s)) : s.cursor.Inside tail n := by
  simpa [hs] using inside_parameterList h hfence

theorem inside_functionHeader (returns : List Parameter) (h : r.cursor.Inside tail n)
    (hfence : Fenced tail) : (r.functionHeader returns).2.cursor.Inside tail n := by
  fun_induction functionHeader returns r with
  | case1 _ r => exact h
  | case2 _ r hk _ ih =>
    exact ih (inside_parameterList (inside_advance h hfence hk rfl (by simp)) hfence)
  | case3 _ r hk _ _ ih => exact ih (h.skipGroup hfence.bounded)
  | case4 _ r => exact h
  | case5 _ r kind hk hreturns hparen hends _ ih =>
    have hbraces : kind ≠ .opens .brace ∧ kind ≠ .closes .brace := by
      constructor <;> rintro rfl <;> simp [endsHeader] at hends
    have hne := hfence.rest_ne hk hbraces.2
    exact ih (h.advance hk hne hbraces.1 hbraces.2)

theorem inside_functionBody (h : r.cursor.Inside tail n) (hfence : Fenced tail)
    (hs : r.sees (.opens .brace) = true) : r.functionBody.2.cursor.Inside tail n := by
  have hk : r.cursor.kind? = some (.opens .brace) := Cursor.kind?_of_sees hs
  obtain ⟨body, close, post, hr, hbody, hclose, hafter⟩ :=
    h.group hk (hfence.rest_ne hk (by simp))
  obtain ⟨hclosed, hrest⟩ := Cursor.scanBody_of_inside .fresh hclose
    (Cursor.inside_of_nested hr hbody)
  unfold functionBody
  simp only [hclosed, cursor_goTo]
  exact hafter _ hrest

def IsFunctionStart (r : Reading) : Prop :=
  r.kind? = some (.keyword .functionKw) ∨ r.kind? = some (.keyword .constructorKw) ∨
    r.kind? = some (.keyword .fallbackKw) ∨ r.kind? = some (.keyword .receiveKw)

theorem inside_functionName (h : r.cursor.Inside tail n) (hfence : Fenced tail)
    (hstart : r.IsFunctionStart) : r.functionName.2.cursor.Inside tail n := by
  have ha : r.advance.cursor.Inside tail n := by
    rcases hstart with hk | hk | hk | hk <;> exact inside_advance h hfence hk rfl (by simp)
  unfold functionName
  dsimp only
  split
  next => exact ha
  next => exact ha
  next => exact ha
  next =>
    split
    · exact ha
    · exact inside_expectName ha hfence.bounded _

theorem inside_function (h : r.cursor.Inside tail n) (hfence : Fenced tail)
    (hstart : r.IsFunctionStart) : r.function.2.cursor.Inside tail n := by
  have hname := inside_functionName h hfence hstart
  unfold function
  split
  next s hs => rw [hs] at hname; exact hname.skipItem hfence
  next kind name s hs =>
    rw [hs] at hname
    split
    next s' hs' => exact (inside_of_parameterList hname hfence hs').skipItem hfence
    next params s' hs' =>
      have hheader := inside_functionHeader [] (inside_of_parameterList hname hfence hs') hfence
      dsimp only
      split
      next hbrace => exact inside_functionBody hheader hfence hbrace
      next => exact inside_expect hheader hfence rfl (by simp)

theorem inside_event (h : r.cursor.Inside tail n) (hfence : Fenced tail)
    (hk : r.kind? = some (.keyword .eventKw)) : r.event.2.cursor.Inside tail n := by
  have ha := inside_advance h hfence hk rfl (by simp)
  unfold event
  split
  next s hs => exact (inside_of_expectName ha hfence.bounded hs).skipItem hfence
  next name s hs =>
    have hn := inside_of_expectName ha hfence.bounded hs
    split
    next s' hs' => exact (inside_of_parameterList hn hfence hs').skipItem hfence
    next params s' hs' =>
      have hw := (inside_of_parameterList hn hfence hs').skipWord hfence "anonymous"
      exact inside_expect (show (s'.goTo _).cursor.Inside tail n from hw) hfence rfl (by simp)

theorem inside_usingFor (h : r.cursor.Inside tail n) (hfence : Fenced tail)
    (hk : r.kind? = some (.keyword .usingKw)) : r.usingFor.2.cursor.Inside tail n := by
  have ha := inside_advance h hfence hk rfl (by simp)
  have hend (s : Reading) (hs : s.cursor.Inside tail n) : s.usingEnd.cursor.Inside tail n :=
    inside_expect (show (s.goTo _).cursor.Inside tail n from hs.skipWord hfence "global") hfence
      rfl (by simp)
  unfold usingFor
  split
  next => exact (ha.skipGroup hfence.bounded).skipItem hfence
  next =>
    split
    next => exact ha.skipItem hfence
    next library c hc =>
      have hpath := ha.path? hfence.bounded hc
      split
      next => exact hpath.skipItem hfence
      next d hd =>
        have hfor := hpath.eat? hfence.bounded hd rfl (by simp)
        split
        next hstar =>
          exact hend _ (hfor.step hfence.bounded (Cursor.kind?_of_sees hstar) rfl (by simp))
        next =>
          split
          next s hs => exact (inside_of_typeName hfor hfence hs).skipItem hfence
          next target s hs => exact hend _ (inside_of_typeName hfor hfence hs)

theorem inside_stateVariable (h : r.cursor.Inside tail n) (hfence : Fenced tail) :
    r.stateVariable.2.cursor.Inside tail n := by
  unfold stateVariable
  split
  next s hs => exact (inside_of_typeName h hfence hs).skipItem hfence
  next type s hs =>
    have hv := (inside_of_typeName h hfence hs).variableName hfence
    split
    next c hc => rw [hc] at hv; exact hv.skipItem hfence
    next name c hc => rw [hc] at hv; exact hv.skipItem hfence

theorem inside_field (h : r.cursor.Inside tail n) (hfence : Fenced tail) :
    r.field.2.cursor.Inside tail n := by
  unfold field
  split
  next s hs => exact (inside_of_typeName h hfence hs).skipItem hfence
  next type s hs =>
    have ht := inside_of_typeName h hfence hs
    split
    next s' hs' => exact (inside_of_expectName ht hfence.bounded hs').skipItem hfence
    next name s' hs' =>
      exact inside_expect (inside_of_expectName ht hfence.bounded hs') hfence rfl (by simp)

end members

end Reading

end SolidityCompass
