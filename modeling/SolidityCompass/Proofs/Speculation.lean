import SolidityCompass.Proofs.DeclarationGrammar

/-!
# Looking for declarations leaves no trace

Whether a statement declares variables is found out by trying. `declarationHead` and `tupleHeads` go
ahead like `declarationHead?` and `tupleHeads?` and also tell where they gave up, which may be far
behind the start of the statement. `Reading.tryDeclarations` notes the cursor, tries, and goes back
to the note if there was no declaration. The walk over a body knows only what comes of it: the
declarations with the cursor behind them, or the reading as it was.
-/

namespace SolidityCompass

namespace Cursor

theorem skip_of_length_le {c : Cursor} {n : Nat} (h : c.rest.length ≤ n) :
    c.skip n = c.skip c.rest.length := by
  induction n generalizing c with
  | zero => rw [Nat.le_zero.mp h]
  | succ n ih =>
    cases hr : c.rest with
    | nil =>
      have hstay : c.advance = c := by simp [advance, hr]
      rw [skip_succ, hstay, ih (by simp [hr]), hr]
    | cons t ts =>
      have hlength : c.advance.rest.length = ts.length := by simp [hr]
      rw [skip_succ, ih (by simp [hr] at h; simpa [hr] using h), hlength, List.length_cons,
        skip_succ]

/-- The number of tokens between two cursors is known from what lies ahead of them. -/
theorem Reaches.eq_skip {c d : Cursor} (h : c.Reaches d) :
    d = c.skip (c.rest.length - d.rest.length) := by
  obtain ⟨n, rfl⟩ := h
  rw [rest_skip, List.length_drop]
  rcases Nat.le_total n c.rest.length with hn | hn
  · rw [Nat.sub_sub_self hn]
  · rw [Nat.sub_eq_zero_of_le hn, Nat.sub_zero, skip_of_length_le hn]

/-- What was found, with the cursor behind it. Where nothing was found, the cursor is forgotten. -/
def settled {α : Type} (found : Option α × Cursor) : Option (α × Cursor) :=
  found.1.map (·, found.2)

theorem settled_eq_some {α : Type} {found : Option α × Cursor} {x : α} {d : Cursor} :
    settled found = some (x, d) ↔ found = (some x, d) := by
  obtain ⟨_ | y, e⟩ := found <;> simp [settled]

theorem settled_filter {α : Type} (found : Option α × Cursor) (p : α → Cursor → Bool) :
    settled (found.1.filter (p · found.2), found.2) =
      (settled found).filter fun (x, d) => p x d := by
  obtain ⟨_ | x, d⟩ := found
  · rfl
  · simp only [settled, Option.filter, Option.map_some]
    split <;> rfl

theorem settled_map {α β : Type} (found : Option α × Cursor) (f : α → β) :
    settled (found.1.map f, found.2) = (settled found).map fun (x, d) => (f x, d) := by
  obtain ⟨_ | x, d⟩ := found <;> rfl

def declarationHead (c : Cursor) : Option LocalVariable × Cursor :=
  if c.rest.head?.any startsDeclaration then
    match c.typeName with
    | (none, d) => (none, d)
    | (some type, d) =>
      match d.skipLocation.name? with
      | none => (none, d.skipLocation)
      | some (name, e) => (some ⟨type, name, ⟨c.here.start, name.range.stop⟩⟩, e)
  else (none, c)

theorem settled_declarationHead (c : Cursor) : settled c.declarationHead = c.declarationHead? := by
  unfold declarationHead declarationHead?
  split
  next =>
    rcases c.typeName with ⟨_ | type, d⟩
    · rfl
    · cases hname : d.skipLocation.name? <;> simp [settled, hname]
  next => rfl

theorem reaches_declarationHead (c : Cursor) : c.Reaches c.declarationHead.2 := by
  have htype := c.reaches_typeName
  unfold declarationHead
  split
  next =>
    split
    next d hd => rwa [hd] at htype
    next type d hd =>
      rw [hd] at htype
      have hlocation := htype.trans d.reaches_skipLocation
      split
      next => exact hlocation
      next name e he => exact hlocation.trans (passes_of_name? he).reaches
  next => exact .refl c

theorem passes_of_declarationHead {c d : Cursor} {v : LocalVariable}
    (h : c.declarationHead = (some v, d)) : c.Passes d :=
  passes_of_declarationHead? (by rw [← settled_declarationHead, settled_eq_some.mpr h])

/-- Reads the heads in a list in parentheses. A list that cannot be read is left where that was
noticed. -/
def tupleHeads (c : Cursor) : Option (List LocalVariable) × Cursor :=
  match hk : c.kind? with
  | some .comma =>
    have := (passes_advance_of_kind? hk).length_lt
    tupleHeads c.advance
  | some (.closes .paren) => (some [], c.advance)
  | _ =>
    match hhead : c.declarationHead with
    | (none, d) => (none, d)
    | (some v, d) =>
      have := (passes_of_declarationHead hhead).length_lt
      if d.seesAny separatesHeads then ((tupleHeads d).1.map (v :: ·), (tupleHeads d).2)
      else (none, d)
termination_by c.rest.length

theorem reaches_tupleHeads (c : Cursor) : c.Reaches c.tupleHeads.2 := by
  have hhead {c d : Cursor} {v : Option LocalVariable} (h : c.declarationHead = (v, d)) :
      c.Reaches d := by simpa [h] using c.reaches_declarationHead
  fun_induction tupleHeads c with
  | case1 c _ _ ih => exact c.reaches_advance.trans ih
  | case2 c => exact c.reaches_advance
  | case3 c d h => exact hhead h
  | case4 c v d h _ _ _ _ ih => exact (hhead h).trans ih
  | case5 c v d h => exact hhead h

/-- Where a list can be read both readers agree, and elsewhere both find none. -/
theorem settled_tupleHeads (c : Cursor) : settled c.tupleHeads = c.tupleHeads? := by
  have hhead {c d : Cursor} {v : Option LocalVariable} (h : c.declarationHead = (v, d)) :
      c.declarationHead? = v.map (·, d) := by rw [← settled_declarationHead, h, settled]
  fun_induction tupleHeads c with
  | case1 c hk _ ih => rw [tupleHeads?_of_comma hk, ih]
  | case2 c hk =>
    rw [tupleHeads?_of_close hk]
    rfl
  | case3 c d h hcomma hclose =>
    rw [tupleHeads?_of_head c hcomma hclose, hhead h]
    rfl
  | case4 c v d h _ hsep hcomma hclose ih =>
    rw [tupleHeads?_of_head c hcomma hclose, hhead h, settled_map, ih]
    simp only [Option.map_some, hsep, if_true]
  | case5 c v d h _ hsep hcomma hclose =>
    rw [tupleHeads?_of_head c hcomma hclose, hhead h]
    simp only [Option.map_some, hsep]
    rfl

def attempt (c : Cursor) : Option (List LocalVariable) × Cursor :=
  if c.sees (.opens .paren) then
    let found := c.advance.tupleHeads
    (found.1.filter fun vs => !vs.isEmpty && found.2.sees .eq, found.2)
  else
    let found := c.declarationHead
    ((found.1.filter fun _ => found.2.sees .eq || found.2.sees .semicolon).map ([·]), found.2)

theorem settled_attempt (c : Cursor) : settled c.attempt = c.declarations? := by
  unfold attempt declarations?
  split
  next =>
    rw [← settled_tupleHeads]
    exact settled_filter _ fun (vs : List LocalVariable) d => !vs.isEmpty && d.sees .eq
  next =>
    have hfilter := settled_filter c.declarationHead fun _ d => d.sees .eq || d.sees .semicolon
    rw [settled_declarationHead] at hfilter
    rw [← hfilter]
    exact settled_map (Option.filter _ c.declarationHead.1, c.declarationHead.2) _

variable {c d : Cursor} {v : LocalVariable} {vs : List LocalVariable}

/-- Each variable of a list was read between its two ends. -/
theorem Slots.exists_between (h : Slots c vs d) (hv : v ∈ vs) :
    ∃ a b, c.Reaches a ∧ a.Head v b ∧ b.Reaches d := by
  induction h with
  | close => cases hv
  | @empty c _ _ _ _ ih =>
    obtain ⟨a, b, ha, hhead, hb⟩ := ih hv
    exact ⟨a, b, c.reaches_advance.trans ha, hhead, hb⟩
  | @last c e _ hhead _ =>
    obtain rfl := List.mem_singleton.mp hv
    exact ⟨c, e, .refl c, hhead, e.reaches_advance⟩
  | @head c e d _ _ hhead hcomma hslots ih =>
    have hnext : e.advance.Reaches d := (passes_of_tupleHeads? hslots.tupleHeads?_eq).reaches
    rcases List.mem_cons.mp hv with rfl | hv
    · exact ⟨c, e, .refl c, hhead, e.reaches_advance.trans hnext⟩
    · obtain ⟨a, b, ha, hhead', hb⟩ := ih hv
      have hreach := (passes_of_declarationHead? hhead.declarationHead?_eq).reaches
      exact ⟨a, b, hreach.trans (e.reaches_advance.trans ha), hhead', hb⟩

theorem Declaration.exists_between (h : c.Declaration vs d) (hv : v ∈ vs) :
    ∃ a b, c.Reaches a ∧ a.Head v b ∧ b.Reaches d := by
  cases h with
  | single hhead _ =>
    obtain rfl := List.mem_singleton.mp hv
    exact ⟨c, d, .refl c, hhead, .refl d⟩
  | tuple _ hslots _ _ =>
    obtain ⟨a, b, ha, hhead, hb⟩ := hslots.exists_between hv
    exact ⟨a, b, c.reaches_advance.trans ha, hhead, hb⟩

end Cursor

namespace Reading

/-- Tries to read the declarations of a statement. Without any, the reading goes back to where the
attempt began. -/
def tryDeclarations (r : Reading) : Option (List LocalVariable) × Reading :=
  let checkpoint := r.cursor
  let s := r.goTo r.cursor.attempt.2
  match r.cursor.attempt.1 with
  | none => (none, s.goTo checkpoint)
  | some vs => (some vs, s)

/-- What the walk over a body knows of an attempt. -/
theorem declarations_eq_tryDeclarations (r : Reading) :
    r.cursor.declarations = (r.tryDeclarations.1.getD [], r.tryDeclarations.2.cursor) := by
  unfold Cursor.declarations tryDeclarations
  rw [← Cursor.settled_attempt]
  cases h : r.cursor.attempt.1 <;> simp [Cursor.settled, h]

def DeclaresBetween (r : Reading) (v : LocalVariable) (i j : Nat) : Prop :=
  i < j ∧ (r.cursor.skip i).Head v (r.cursor.skip j)

variable {r : Reading} {vs : List LocalVariable} {d : Cursor}

theorem tryDeclarations_of_none (h : r.cursor.declarations? = none) :
    r.tryDeclarations = (none, r) := by
  rw [← Cursor.settled_attempt, Cursor.settled, Option.map_eq_none_iff] at h
  unfold tryDeclarations
  rw [h]
  rfl

theorem tryDeclarations_of_declaration (h : r.cursor.Declaration vs d) :
    r.tryDeclarations = (some vs, r.goTo d) := by
  rw [← Cursor.declarations?_eq_some_iff, ← Cursor.settled_attempt, Cursor.settled_eq_some] at h
  unfold tryDeclarations
  rw [h]

/-- Each declared variable was read from tokens in front of where reading goes on. -/
theorem exists_declaresBetween (h : r.cursor.Declaration vs d) :
    ∀ v ∈ vs, ∃ i j, j ≤ r.cursor.rest.length - d.rest.length ∧ r.DeclaresBetween v i j := by
  intro v hv
  obtain ⟨a, b, ha, hhead, hb⟩ := h.exists_between hv
  have hpass := Cursor.passes_of_declarationHead? hhead.declarationHead?_eq
  have hrb := ha.trans hpass.reaches
  refine ⟨r.cursor.rest.length - a.rest.length, r.cursor.rest.length - b.rest.length, ?_, ?_, ?_⟩
  · have := hb.length_le
    omega
  · have := hpass.length_lt
    have := ha.length_le
    omega
  · rwa [← ha.eq_skip, ← hrb.eq_skip]

/-- Reading a type moves the cursor and nothing else. An attempt to read declarations leaves the
reading as it was, or moves the cursor over the tokens that declare the variables and nothing else,
up to a `=` or, behind a single declaration, a `;`. -/
theorem speculation_leaves_no_trace (r : Reading) :
    (∃ n ≤ r.cursor.rest.length, r.typeName.2 = r.goTo (r.cursor.skip n)) ∧
      match r.tryDeclarations with
      | (none, s) => s = r
      | (some vs, s) =>
        ∃ n, 0 < n ∧ n ≤ r.cursor.rest.length ∧ s = r.goTo (r.cursor.skip n) ∧
          (s.sees .eq = true ∨ s.sees .semicolon = true ∧ r.sees (.opens .paren) = false) ∧
          vs ≠ [] ∧ ∀ v ∈ vs, ∃ i j, j ≤ n ∧ r.DeclaresBetween v i j := by
  constructor
  · have htype := r.cursor.reaches_typeName
    refine ⟨r.cursor.rest.length - r.cursor.typeName.2.rest.length, Nat.sub_le _ _, ?_⟩
    rw [← htype.eq_skip]
    rfl
  · cases hread : r.cursor.declarations? with
    | none => rw [tryDeclarations_of_none hread]
    | some found =>
      obtain ⟨vs, d⟩ := found
      have hdecl := Cursor.declarations?_eq_some_iff.mp hread
      have hpass := hdecl.passes
      rw [tryDeclarations_of_declaration hdecl]
      refine ⟨r.cursor.rest.length - d.rest.length, ?_, Nat.sub_le _ _, ?_, ?_, ?_,
        exists_declaresBetween hdecl⟩
      · have := hpass.length_lt
        omega
      · rw [← hpass.reaches.eq_skip]
      · cases hdecl with
        | single hhead h =>
          have hparen : r.sees (.opens .paren) = false := by
            simpa [sees, Cursor.sees] using hhead.kind?_ne rfl (by simp)
          exact h.imp Cursor.sees_of_kind? fun h => ⟨Cursor.sees_of_kind? h, hparen⟩
        | tuple _ _ _ h => exact Or.inl (Cursor.sees_of_kind? h)
      · cases hdecl with
        | single => exact List.cons_ne_nil _ _
        | tuple _ _ hvs _ => exact hvs

end Reading

end SolidityCompass
