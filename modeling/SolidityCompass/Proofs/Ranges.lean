import Mathlib.Order.Nat
import SolidityCompass.Proofs.TokenOrder

/-!
# Trees of ranges

`RangeTree` keeps of a declaration only its range and those of its parts, and `Row` says that
trees follow each other between two offsets of a text and that each of them holds its own parts in
the same way. `Reading.Found` is what readers keep while they move: all errors so far lie in the
text, and the declarations found since some offset form a row that ends where reading stands.
-/

namespace SolidityCompass

def IsBoundary (text : String) (offset : Nat) : Prop :=
  ∃ front back, text.toList = front ++ back ∧ offset = byteLength front

theorem IsBoundary.le {text : String} {offset : Nat} (h : IsBoundary text offset) :
    offset ≤ byteLength text.toList := by
  obtain ⟨front, back, htext, rfl⟩ := h
  simp [htext]

theorem isBoundary_zero (text : String) : IsBoundary text 0 :=
  ⟨[], text.toList, rfl, rfl⟩

theorem isBoundary_byteLength (text : String) : IsBoundary text (byteLength text.toList) :=
  ⟨text.toList, [], by simp, rfl⟩

structure ByteRange.Fits (text : String) (range : ByteRange) : Prop where
  start_le_stop : range.start ≤ range.stop
  start : IsBoundary text range.start
  stop : IsBoundary text range.stop

/-- A range and the trees of what lies in it. -/
inductive RangeTree where
  | node (range : ByteRange) (parts : List RangeTree)

def RangeTree.range : RangeTree → ByteRange
  | node range _ => range

/-- The trees follow each other between two offsets, each one fits in the text, and its parts are
such a row inside of it. -/
inductive Row (text : String) : Nat → Nat → List RangeTree → Prop
  | nil {lo hi : Nat} (h : lo ≤ hi) : Row text lo hi []
  | cons {lo hi : Nat} {range : ByteRange} {parts trees : List RangeTree} (hlo : lo ≤ range.start)
    (hfits : range.Fits text) (hparts : Row text range.start range.stop parts)
    (htrees : Row text range.stop hi trees) : Row text lo hi (.node range parts :: trees)

namespace Row

variable {text : String} {lo lo' mid hi hi' : Nat} {xs ys : List RangeTree}

theorem le (h : Row text lo hi xs) : lo ≤ hi := by
  induction h with
  | nil h => exact h
  | cons hlo hfits _ _ _ ih => exact hlo.trans (hfits.start_le_stop.trans ih)

theorem mono_left (h : Row text lo hi xs) (hlo : lo' ≤ lo) : Row text lo' hi xs := by
  cases h with
  | nil h => exact .nil (hlo.trans h)
  | cons hstart hfits hparts htrees => exact .cons (hlo.trans hstart) hfits hparts htrees

theorem append (h : Row text lo mid xs) (h' : Row text mid hi ys) : Row text lo hi (xs ++ ys) := by
  induction h with
  | nil hle => exact h'.mono_left hle
  | cons hlo hfits hparts _ _ ih => exact .cons hlo hfits hparts (ih h')

theorem mono_right (h : Row text lo mid xs) (hhi : mid ≤ hi) : Row text lo hi xs := by
  simpa using h.append (.nil hhi)

theorem of_append_left (h : Row text lo hi (xs ++ ys)) : Row text lo hi xs := by
  induction xs generalizing lo with
  | nil => exact .nil h.le
  | cons x xs ih =>
    cases h with
    | cons hlo hfits hparts htrees => exact .cons hlo hfits hparts (ih htrees)

theorem single {range : ByteRange} {parts : List RangeTree} (hlo : lo ≤ range.start)
    (hhi : range.stop ≤ hi) (hfits : range.Fits text)
    (hparts : Row text range.start range.stop parts) : Row text lo hi [.node range parts] :=
  .cons hlo hfits hparts (.nil hhi)

/-- A tree without parts. -/
theorem leaf {range : ByteRange} (hlo : lo ≤ range.start) (hhi : range.stop ≤ hi)
    (hfits : range.Fits text) : Row text lo hi [.node range []] :=
  single hlo hhi hfits (.nil hfits.start_le_stop)

/-- What lies in a row lies between its ends, and what lies in a tree of the row is a row. -/
theorem of_mem {range : ByteRange} {parts : List RangeTree} (h : Row text lo hi xs)
    (hx : .node range parts ∈ xs) :
    lo ≤ range.start ∧ range.stop ≤ hi ∧ range.Fits text ∧
      Row text range.start range.stop parts := by
  induction h with
  | nil => cases hx
  | cons hlo hfits hparts htrees _ ih =>
    rcases List.mem_cons.mp hx with heq | hx
    · cases heq
      exact ⟨hlo, htrees.le, hfits, hparts⟩
    · obtain ⟨hstart, hstop, hrest⟩ := ih hx
      exact ⟨hlo.trans (hfits.start_le_stop.trans hstart), hstop, hrest⟩

theorem pairwise (h : Row text lo hi xs) :
    xs.Pairwise fun x y => x.range.stop ≤ y.range.start := by
  induction h with
  | nil => exact List.Pairwise.nil
  | cons _ _ _ htrees _ ih =>
    refine List.pairwise_cons.mpr ⟨?_, ih⟩
    rintro ⟨range, parts⟩ hy
    exact (htrees.of_mem hy).1

end Row

def IsSlice (text : String) (range : ByteRange) (word : String) : Prop :=
  ∃ front back, text.toList = front ++ word.toList ++ back ∧
    range = ⟨byteLength front, byteLength (front ++ word.toList)⟩

theorem IsSlice.fits {text : String} {range : ByteRange} {word : String}
    (h : IsSlice text range word) : range.Fits text := by
  obtain ⟨front, back, htext, rfl⟩ := h
  refine ⟨by simp, ⟨front, word.toList ++ back, ?_, rfl⟩, ⟨_, back, htext, rfl⟩⟩
  rw [htext, List.append_assoc]

theorem isSlice_of_mem_tokensFrom {text : String} {start : Nat} {front cs : List Char} {t : Token}
    (htext : text.toList = front ++ cs) (hstart : start = byteLength front)
    (h : t ∈ tokensFrom start cs) : IsSlice text t.range t.text := by
  fun_induction tokensFrom start cs generalizing front with
  | case1 => simp at h
  | case2 start c cs ih =>
    have hsplit : text.toList = (front ++ c :: cs.take (lexeme c cs).2) ++
        cs.drop (lexeme c cs).2 := by
      rw [htext, List.append_assoc, List.cons_append, List.take_append_drop]
    have hstop : (Token.first start c cs).range.stop =
        byteLength (front ++ c :: cs.take (lexeme c cs).2) := by
      rw [byteLength_append, ← hstart]
      rfl
    rcases List.mem_cons.mp h with rfl | h
    · refine ⟨front, cs.drop (lexeme c cs).2, ?_, ?_⟩
      · simpa [Token.first] using hsplit
      · simp [Token.first, hstart]
    · exact ih hsplit hstop h

/-- A token is the stretch of the text at its range. -/
theorem isSlice_of_mem_tokenize {text : String} {t : Token} (h : t ∈ tokenize text) :
    IsSlice text t.range t.text :=
  isSlice_of_mem_tokensFrom (List.nil_append text.toList).symm byteLength_nil.symm h

theorem fits_of_mem_tokenize {text : String} {t : Token} (h : t ∈ tokenize text) :
    t.range.Fits text :=
  (isSlice_of_mem_tokenize h).fits

theorem fits_of_mem_significant {text : String} {t : Token} (h : t ∈ significant text) :
    t.range.Fits text :=
  fits_of_mem_tokenize (List.mem_filter.mp h).1

theorem isBoundary_lastStop {text : String} {done : List Token}
    (h : ∀ t ∈ done, t.range.Fits text) : IsBoundary text (lastStop done) := by
  unfold lastStop
  cases hlast : done.getLast? with
  | none => exact isBoundary_zero text
  | some t => exact (h t (List.mem_of_getLast? hlast)).stop

namespace Cursor

@[simp] theorem textEnd_advance (c : Cursor) : c.advance.textEnd = c.textEnd := by
  unfold advance
  split <;> rfl

theorem Reaches.textEnd_eq {c d : Cursor} (h : c.Reaches d) : d.textEnd = c.textEnd := by
  obtain ⟨n, rfl⟩ := h
  induction n generalizing c with
  | zero => rfl
  | succ n ih => rw [skip_succ, ih, textEnd_advance]

structure In (text : String) (c : Cursor) : Prop where
  on : c.On (significant text)
  textEnd : c.textEnd = byteLength text.toList

namespace In

variable {text : String} {c d : Cursor}

theorem reaches (h : c.In text) (hd : c.Reaches d) : d.In text :=
  ⟨h.on.reaches hd, hd.textEnd_eq.trans h.textEnd⟩

theorem advance (h : c.In text) : c.advance.In text :=
  h.reaches c.reaches_advance

theorem fits_of_mem_rest (h : c.In text) {t : Token} (ht : t ∈ c.rest) : t.range.Fits text := by
  obtain ⟨done, hdone, -⟩ := h.on
  exact fits_of_mem_significant (by rw [hdone]; exact List.mem_append_right _ ht)

theorem isBoundary_passed (h : c.In text) : IsBoundary text c.passed := by
  obtain ⟨done, hdone, hpassed⟩ := h.on
  rw [hpassed]
  apply isBoundary_lastStop
  intro t ht
  exact fits_of_mem_significant (by rw [hdone]; exact List.mem_append_left _ ht)

theorem fits_here (h : c.In text) : c.here.Fits text := by
  unfold here
  split
  next =>
    have hend := h.textEnd ▸ isBoundary_byteLength text
    exact ⟨Nat.le_refl _, hend, hend⟩
  next t _ hr => exact h.fits_of_mem_rest (by simp [hr])

theorem passed_le_of_mem_rest (h : c.In text) {t : Token} (ht : t ∈ c.rest) :
    c.passed ≤ t.range.start := by
  obtain ⟨done, hdone, hpassed⟩ := h.on
  rw [hpassed, lastStop]
  cases hlast : done.getLast? with
  | none => exact Nat.zero_le _
  | some last =>
    have hfollow := (ordered_significant text).follow
    rw [hdone] at hfollow
    exact (List.pairwise_append.mp hfollow).2.2 last (List.mem_of_getLast? hlast) t ht

theorem passed_le_here (h : c.In text) : c.passed ≤ c.here.start := by
  unfold here
  split
  next => exact h.textEnd ▸ h.isBoundary_passed.le
  next t _ hr => exact h.passed_le_of_mem_rest (by simp [hr])

theorem passed_le_advance (h : c.In text) : c.passed ≤ c.advance.passed := by
  cases hr : c.rest with
  | nil => simp [Cursor.advance, hr]
  | cons t ts =>
    have hstart := h.passed_le_of_mem_rest (show t ∈ c.rest by simp [hr])
    have hfits := h.fits_of_mem_rest (show t ∈ c.rest by simp [hr])
    simpa [Cursor.advance, hr] using hstart.trans hfits.start_le_stop

theorem passed_le (h : c.In text) (hd : c.Reaches d) : c.passed ≤ d.passed := by
  obtain ⟨n, rfl⟩ := hd
  induction n generalizing c with
  | zero => exact Nat.le_refl _
  | succ n ih => exact h.passed_le_advance.trans (ih h.advance)

theorem here_stop_le (h : c.In text) (hd : c.Passes d) : c.here.stop ≤ d.passed := by
  obtain ⟨hne, hd⟩ := hd
  obtain ⟨t, ts, hr⟩ := List.exists_cons_of_ne_nil hne
  have hstop : c.advance.passed = c.here.stop := by simp [Cursor.advance, here, hr]
  exact hstop ▸ h.advance.passed_le hd

theorem here_start_lt (h : c.In text) (hne : c.rest ≠ []) : c.here.start < c.here.stop := by
  obtain ⟨t, ts, hr⟩ := List.exists_cons_of_ne_nil hne
  obtain ⟨done, hdone, -⟩ := h.on
  have ht := (ordered_significant text).nonempty t (by simp [hdone, hr])
  simpa [here, hr] using ht

end In

end Cursor

namespace Reading

structure Sound (text : String) (r : Reading) : Prop where
  cursor : r.cursor.In text
  faults : ∀ e ∈ r.faults, e.range.Fits text

/-- The reading is sound, and the trees form a row from an offset to where it stands. -/
structure Found (text : String) (lo : Nat) (trees : List RangeTree) (r : Reading) : Prop where
  sound : r.Sound text
  row : Row text lo r.cursor.passed trees

variable {text : String} {lo : Nat} {xs ys : List RangeTree} {r s : Reading}

theorem Sound.found (h : r.Sound text) : Found text r.cursor.passed [] r :=
  ⟨h, .nil (Nat.le_refl _)⟩

namespace Found

theorem trans (h : Found text lo xs r) (h' : Found text r.cursor.passed ys s) :
    Found text lo (xs ++ ys) s :=
  ⟨h'.sound, h.row.append h'.row⟩

theorem of_append_left (h : Found text lo (xs ++ ys) r) : Found text lo xs r :=
  ⟨h.sound, h.row.of_append_left⟩

/-- Moving forward without finding anything. -/
theorem goTo (h : Found text lo xs r) {c : Cursor} (hc : r.cursor.Reaches c) :
    Found text lo xs (r.goTo c) :=
  ⟨⟨h.sound.cursor.reaches hc, h.sound.faults⟩, h.row.mono_right (h.sound.cursor.passed_le hc)⟩

theorem advance (h : Found text lo xs r) : Found text lo xs r.advance :=
  h.goTo r.cursor.reaches_advance

theorem skipItem (h : Found text lo xs r) : Found text lo xs r.skipItem :=
  h.goTo r.cursor.reaches_skipItem

theorem reportAt (h : Found text lo xs r) (fault : Fault) {range : ByteRange}
    (hrange : range.Fits text) : Found text lo xs (r.reportAt fault range) :=
  ⟨⟨h.sound.cursor, List.forall_mem_cons.mpr ⟨hrange, h.sound.faults⟩⟩, h.row⟩

theorem report (h : Found text lo xs r) (fault : Fault) : Found text lo xs (r.report fault) :=
  h.reportAt fault h.sound.cursor.fits_here

theorem recover (h : Found text lo xs r) (fault : Fault) : Found text lo xs (r.recover fault) :=
  (h.report fault).skipItem

theorem skipKind (h : Found text lo xs r) (kind : Kind) : Found text lo xs (r.skipKind kind) := by
  unfold Reading.skipKind
  split
  · exact h.advance
  · exact h

theorem expect (h : Found text lo xs r) (kind : Kind) : Found text lo xs (r.expect kind) := by
  unfold Reading.expect
  split
  · exact h.advance
  · exact h.report _

/-- The range from an offset to where reading stands. -/
theorem fits_rangeFrom (h : Found text lo xs r) (hlo : IsBoundary text lo) :
    (r.rangeFrom lo).Fits text :=
  ⟨h.row.le, hlo, h.sound.cursor.isBoundary_passed⟩

/-- What is found in a declaration that starts where reading stood becomes its parts. -/
theorem close (hr : r.Sound text) (h : Found text r.here.start xs s) :
    Found text r.cursor.passed [.node (s.rangeFrom r.here.start) xs] s :=
  ⟨h.sound, .single hr.cursor.passed_le_here (Nat.le_refl _)
    (h.fits_rangeFrom hr.cursor.fits_here.start) h.row⟩

/-- What was begun is given up. -/
theorem giveUp (hr : r.Sound text) (h : Found text r.here.start xs s) :
    Found text r.cursor.passed [] s :=
  ⟨h.sound, .nil (hr.cursor.passed_le_here.trans h.row.le)⟩

end Found

/-- Behind the first token of a declaration nothing is found yet. -/
theorem Sound.foundFirst (h : r.Sound text) {kind : Kind} (hk : r.kind? = some kind) :
    Found text r.here.start [] r.advance := by
  have hpasses : r.cursor.Passes r.cursor.advance := Cursor.passes_advance_of_kind? hk
  refine ⟨h.found.advance.sound, .nil ?_⟩
  exact h.cursor.fits_here.start_le_stop.trans (h.cursor.here_stop_le hpasses)

end Reading

end SolidityCompass
