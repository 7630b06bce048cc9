import SolidityCompass.Proofs.ErasedCursors
import SolidityCompass.Proofs.Ranges

/-!
# The grammar of declarations in a body

`Cursor.Declaration` tells which tokens at a cursor declare variables and where they end, with
`Head` for one variable and `Slots` for a list in parentheses. Only types are taken from their
reader. The reader of declarations answers exactly where the grammar holds, so there is at most one
way to read declarations at a cursor.
-/

namespace SolidityCompass

namespace Cursor

def MayLocate (tokens : List Token) : Prop :=
  tokens = [] ∨ ∃ t : Token, tokens = [t] ∧ t.kind.isDataLocation = true

/-- From `c` to `d` stands the head of a declaration: a type, perhaps a data location, and a name.
It begins with a name or with `mapping`, and not with a word that begins a statement. -/
inductive Head (c : Cursor) : LocalVariable → Cursor → Prop
  | intro {first name : Token} {more location ahead : List Token} {type : TypeName} {e : Cursor}
      (rest_eq : c.rest = first :: more)
      (starts : first.kind.isName = true ∨ first.kind = .keyword .mappingKw)
      (no_statement : ¬ (first.kind = .ident ∧ first.text ∈ statementWords))
      (type_eq : c.typeName = (some type, e))
      (split : e.rest = location ++ name :: ahead) (locates : MayLocate location)
      (names : name.kind.isName = true) :
      Head c ⟨type, ⟨name.text, name.range⟩, ⟨first.range.start, name.range.stop⟩⟩
        (e.skip (location.length + 1))

/-- From `c` to `d` stands a comma list of heads and empty slots with its closing parenthesis. -/
inductive Slots : Cursor → List LocalVariable → Cursor → Prop
  | close {c : Cursor} (h : c.kind? = some (.closes .paren)) : Slots c [] c.advance
  | empty {c d : Cursor} {vs : List LocalVariable} (h : c.kind? = some .comma)
      (slots : Slots c.advance vs d) : Slots c vs d
  | last {c d : Cursor} {v : LocalVariable} (head : Head c v d)
      (h : d.kind? = some (.closes .paren)) : Slots c [v] d.advance
  | head {c d e : Cursor} {v : LocalVariable} {vs : List LocalVariable} (head : Head c v d)
      (h : d.kind? = some .comma) (slots : Slots d.advance vs e) : Slots c (v :: vs) e

/-- From `c` to `d` stand the declarations of a statement: a head before `=` or `;`, or a list in
parentheses with a head in it before `=`. -/
inductive Declaration (c : Cursor) : List LocalVariable → Cursor → Prop
  | single {d : Cursor} {v : LocalVariable} (head : Head c v d)
      (h : d.kind? = some .eq ∨ d.kind? = some .semicolon) : Declaration c [v] d
  | tuple {d : Cursor} {vs : List LocalVariable} (hopen : c.kind? = some (.opens .paren))
      (slots : Slots c.advance vs d) (hvs : vs ≠ []) (h : d.kind? = some .eq) : Declaration c vs d

variable {c d e : Cursor} {v : LocalVariable} {vs : List LocalVariable}

theorem isSome_location? {t : Token} {ts : List Token} (h : c.rest = t :: ts) :
    c.location?.isSome = t.kind.isDataLocation := by
  have hk : c.kind? = some t.kind := by simp [kind?, h]
  unfold location? Kind.isDataLocation
  rw [hk]
  cases hkind : t.kind with
  | keyword word => cases word <;> rfl
  | _ => rfl

theorem exists_mayLocate (c : Cursor) :
    ∃ location, MayLocate location ∧ c.skipLocation = c.skip location.length ∧
      c.rest = location ++ c.skipLocation.rest := by
  cases hr : c.rest with
  | nil =>
    have hstay : c.skipLocation = c := by simp [skipLocation, location?, kind?, hr]
    exact ⟨[], Or.inl rfl, hstay, by rw [hstay, hr]; rfl⟩
  | cons t ts =>
    have hloc := isSome_location? hr
    unfold skipLocation
    split
    next hs => exact ⟨[t], Or.inr ⟨t, rfl, by rw [← hloc, hs]⟩, rfl, by simp [hr]⟩
    next => exact ⟨[], Or.inl rfl, rfl, by simp [hr]⟩

theorem skipLocation_of_mayLocate {location ahead : List Token} {name : Token}
    (hr : c.rest = location ++ name :: ahead) (hloc : MayLocate location)
    (hname : name.kind.isName = true) : c.skipLocation = c.skip location.length := by
  rcases hloc with rfl | ⟨t, rfl, ht⟩
  · have hnot : name.kind.isDataLocation = false := by
      cases hk : name.kind with
      | keyword word =>
        cases word <;> simp_all [Kind.isName, Kind.isContextual, Kind.isDataLocation]
      | _ => rfl
    rw [skipLocation, isSome_location? hr, hnot]
    rfl
  · rw [skipLocation, isSome_location? hr, ht]
    rfl

theorem startsDeclaration_eq_true {t : Token} :
    startsDeclaration t = true ↔
      (t.kind.isName = true ∨ t.kind = .keyword .mappingKw) ∧
        ¬ (t.kind = .ident ∧ t.text ∈ statementWords) := by
  rw [not_and_or]
  simp [startsDeclaration]

theorem head_of_declarationHead? (h : c.declarationHead? = some (v, d)) : c.Head v d := by
  unfold declarationHead? at h
  split at h
  next hstart =>
    cases hr : c.rest with
    | nil => simp [hr] at hstart
    | cons first more =>
      have hhere : c.here = first.range := by simp [here, hr]
      rw [hr, List.head?_cons, Option.any_some] at hstart
      obtain ⟨hstarts, hword⟩ := startsDeclaration_eq_true.mp hstart
      split at h
      next => cases h
      next type e he =>
        obtain ⟨⟨n, f⟩, hf, hd⟩ := Option.map_eq_some_iff.mp h
        obtain ⟨name, ahead, hname, hisName, rfl, rfl⟩ := name?_eq_some hf
        obtain ⟨location, hloc, hskip, hrest⟩ := e.exists_mayLocate
        cases hd
        rw [hname] at hrest
        have hhead := Head.intro hr hstarts hword he hrest hloc hisName
        rw [← skip_skip, ← hskip] at hhead
        rw [hhere]
        exact hhead
  next => cases h

theorem Head.declarationHead?_eq (h : c.Head v d) : c.declarationHead? = some (v, d) := by
  cases h with
  | @intro first name more location ahead type e hr hstarts hword he hsplit hloc hname =>
    have hstart : c.rest.head?.any startsDeclaration = true := by
      rw [hr, List.head?_cons, Option.any_some]
      exact startsDeclaration_eq_true.mpr ⟨hstarts, hword⟩
    have hhere : c.here = first.range := by simp [here, hr]
    have hskip := skipLocation_of_mayLocate hsplit hloc hname
    have hrest : e.skipLocation.rest = name :: ahead := by simp [hskip, hsplit]
    have hname? :
        e.skipLocation.name? = some (⟨name.text, name.range⟩, e.skipLocation.advance) := by
      simp [name?, hrest, hname]
    rw [declarationHead?, if_pos hstart, he]
    dsimp only
    rw [hname?, Option.map_some, hhere, hskip, ← skip_skip]
    rfl

/-- A head begins with no punctuation. -/
theorem Head.kind?_eq (h : c.Head v d) :
    ∃ kind, c.kind? = some kind ∧ (kind.isName = true ∨ kind = .keyword .mappingKw) := by
  cases h with
  | @intro first _ _ _ _ _ _ hr hstarts => exact ⟨first.kind, by simp [kind?, hr], hstarts⟩

theorem Head.kind?_ne {kind : Kind} (h : c.Head v d) (hname : kind.isName = false)
    (hmapping : kind ≠ .keyword .mappingKw) : c.kind? ≠ some kind := by
  obtain ⟨first, hfirst, hstarts⟩ := h.kind?_eq
  rw [hfirst]
  rintro ⟨⟩
  rcases hstarts with hstarts | hstarts
  · rw [hname] at hstarts
    cases hstarts
  · exact hmapping hstarts

theorem seesAny_separatesHeads :
    c.seesAny separatesHeads = true ↔ c.kind? = some .comma ∨ c.kind? = some (.closes .paren) := by
  cases hk : c.kind? <;> simp [seesAny, separatesHeads, hk]

theorem slots_of_tupleHeads? (h : c.tupleHeads? = some (vs, d)) : Slots c vs d := by
  fun_induction tupleHeads? c generalizing vs d with
  | case1 c hk _ ih => exact .empty hk (ih h)
  | case2 c hk =>
    cases h
    exact .close hk
  | case3 => cases h
  | case4 c v e he _ hsep _ _ ih =>
    have hhead := head_of_declarationHead? he
    obtain ⟨⟨ws, f⟩, hf, hd⟩ := Option.map_eq_some_iff.mp h
    cases hd
    -- Behind the head stands a separator, so the next slot does not begin there.
    have hnext {w : LocalVariable} {g : Cursor} : ¬ e.Head w g := by
      intro hw
      rcases seesAny_separatesHeads.mp hsep with hk | hk
      · exact hw.kind?_ne rfl (by simp) hk
      · exact hw.kind?_ne rfl (by simp) hk
    cases ih hf with
    | close hclose => exact .last hhead hclose
    | empty hcomma hslots => exact .head hhead hcomma hslots
    | last hw _ => exact absurd hw hnext
    | head hw _ _ => exact absurd hw hnext
  | case5 => cases h

theorem tupleHeads?_of_comma (h : c.kind? = some .comma) :
    c.tupleHeads? = c.advance.tupleHeads? := by
  rw [tupleHeads?_eq, h]

theorem tupleHeads?_of_close (h : c.kind? = some (.closes .paren)) :
    c.tupleHeads? = some ([], c.advance) := by
  rw [tupleHeads?_eq, h]

theorem Head.tupleHeads?_eq (h : c.Head v d) (hsep : d.seesAny separatesHeads = true) :
    c.tupleHeads? = d.tupleHeads?.map fun (vs, e) => (v :: vs, e) := by
  rw [tupleHeads?_of_head _ (h.kind?_ne rfl (by simp)) (h.kind?_ne rfl (by simp)),
    h.declarationHead?_eq]
  simp only [hsep, if_true]

theorem Slots.tupleHeads?_eq (h : Slots c vs d) : c.tupleHeads? = some (vs, d) := by
  induction h with
  | close h => exact tupleHeads?_of_close h
  | empty h _ ih => rw [tupleHeads?_of_comma h, ih]
  | last hhead h =>
    rw [hhead.tupleHeads?_eq (seesAny_separatesHeads.mpr (Or.inr h)), tupleHeads?_of_close h]
    rfl
  | head hhead h _ ih =>
    rw [hhead.tupleHeads?_eq (seesAny_separatesHeads.mpr (Or.inl h)), tupleHeads?_of_comma h, ih]
    rfl

/-- The reader of declarations follows the grammar. -/
theorem declarations?_eq_some_iff : c.declarations? = some (vs, d) ↔ c.Declaration vs d := by
  constructor
  · intro h
    unfold declarations? at h
    split at h
    next hopen =>
      obtain ⟨hslots, hend⟩ := Option.filter_eq_some_iff.mp h
      obtain ⟨hvs, heq⟩ : vs ≠ [] ∧ d.sees .eq = true := by simpa using hend
      exact .tuple (kind?_of_sees hopen) (slots_of_tupleHeads? hslots) hvs (kind?_of_sees heq)
    next =>
      obtain ⟨⟨v, e⟩, he, hd⟩ := Option.map_eq_some_iff.mp h
      obtain ⟨hhead, hend⟩ := Option.filter_eq_some_iff.mp he
      cases hd
      refine .single (head_of_declarationHead? hhead) ?_
      simpa [sees] using hend
  · intro h
    cases h with
    | single hhead h =>
      have hparen : ¬ c.sees (.opens .paren) = true := by
        simpa [sees] using hhead.kind?_ne rfl (by simp)
      rw [declarations?, if_neg hparen, hhead.declarationHead?_eq]
      simp [Option.filter, sees, h]
    | tuple hopen hslots hvs h =>
      rw [declarations?, if_pos (sees_of_kind? hopen), hslots.tupleHeads?_eq]
      simp [Option.filter, sees, hvs, h]

/-- Declarations begin with a head or with a parenthesis. -/
theorem Declaration.kind?_ne {kind : Kind} (h : c.Declaration vs d) (hname : kind.isName = false)
    (hmapping : kind ≠ .keyword .mappingKw) (hparen : kind ≠ .opens .paren) :
    c.kind? ≠ some kind := by
  cases h with
  | single hhead _ => exact hhead.kind?_ne hname hmapping
  | tuple hopen _ _ _ =>
    rw [hopen]
    rintro ⟨⟩
    exact hparen rfl

theorem Declaration.kind?_stop (h : c.Declaration vs d) :
    d.kind? = some .eq ∨ d.kind? = some .semicolon := by
  cases h with
  | single _ h => exact h
  | tuple _ _ _ h => exact Or.inl h

/-- Where declarations end, no others begin. -/
theorem Declaration.not_declaration (h : c.Declaration vs d) {ws : List LocalVariable} :
    ¬ d.Declaration ws e := by
  intro h'
  rcases h.kind?_stop with hk | hk
  · exact h'.kind?_ne rfl (by simp) (by simp) hk
  · exact h'.kind?_ne rfl (by simp) (by simp) hk

theorem Declaration.passes (h : c.Declaration vs d) : c.Passes d :=
  passes_of_declarations? (declarations?_eq_some_iff.mpr h)

theorem Slots.exists_head (h : Slots c vs d) (hv : v ∈ vs) :
    ∃ a b, c.Reaches a ∧ a.Head v b := by
  induction h with
  | close => cases hv
  | @empty c _ _ _ _ ih =>
    obtain ⟨a, b, ha, hhead⟩ := ih hv
    exact ⟨a, b, c.reaches_advance.trans ha, hhead⟩
  | @last c _ _ hhead _ =>
    obtain rfl := List.mem_singleton.mp hv
    exact ⟨c, _, .refl c, hhead⟩
  | @head c e _ _ _ hhead _ _ ih =>
    rcases List.mem_cons.mp hv with rfl | hv
    · exact ⟨c, e, .refl c, hhead⟩
    · obtain ⟨a, b, ha, hhead'⟩ := ih hv
      have hreach := (passes_of_declarationHead? hhead.declarationHead?_eq).reaches
      exact ⟨a, b, hreach.trans (e.reaches_advance.trans ha), hhead'⟩

theorem Declaration.exists_head (h : c.Declaration vs d) (hv : v ∈ vs) :
    ∃ a b, c.Reaches a ∧ a.Head v b := by
  cases h with
  | single hhead _ =>
    obtain rfl := List.mem_singleton.mp hv
    exact ⟨c, d, .refl c, hhead⟩
  | tuple _ hslots _ _ =>
    obtain ⟨a, b, ha, hhead⟩ := hslots.exists_head hv
    exact ⟨a, b, c.reaches_advance.trans ha, hhead⟩

theorem Head.range_lt {text : String} (h : c.Head v d) (hc : c.In text) :
    v.range.start < v.range.stop := by
  have hpasses := passes_of_declarationHead? h.declarationHead?_eq
  have hstart := hc.here_start_lt hpasses.1
  have hstop := hc.here_stop_le hpasses
  cases h with
  | @intro first name _ location ahead _ e hr _ _ _ hsplit =>
    have hrest : (e.skip location.length).rest = name :: ahead := by simp [hsplit]
    have hpassed : (e.skip (location.length + 1)).passed = name.range.stop := by
      rw [← skip_skip, skip_succ, skip_zero, Cursor.advance, hrest]
    have hhere : c.here = first.range := by simp [here, hr]
    rw [hhere] at hstart hstop
    rw [hpassed] at hstop
    exact hstart.trans_le hstop

end Cursor

end SolidityCompass
