import Mathlib.Data.List.TakeWhile
import SolidityCompass.Proofs.Ranges
import SolidityCompass.Text.Lines

/-!
# Offsets and positions

Line feeds split a text into lines, and a place between two characters cuts one of these lines in
two: the lines before it and the length of the first piece are its position. So positions and
offsets are inverse, except that a position never stands behind the carriage return of a line's
terminator. `Lines.Cut` ties an offset to the lines around it, and both conversions are read off it.
-/

namespace SolidityCompass

/-- The position behind some characters of a text: the number of line feeds among them, and the
number of characters since the last one. -/
def Position.after (cs : List Char) : Position :=
  ⟨cs.count '\n', (cs.reverse.takeWhile (· != '\n')).length⟩

namespace Lines

theorem takeWhile_reverse_eq_self_iff {cs : List Char} :
    cs.reverse.takeWhile (· != '\n') = cs.reverse ↔ '\n' ∉ cs := by
  rw [List.takeWhile_eq_self_iff]
  constructor
  · intro hall hmem
    simpa using hall '\n' (List.mem_reverse.mpr hmem)
  · intro hmem c hc
    have hne : c ≠ '\n' := fun heq => hmem (List.mem_reverse.mp (heq ▸ hc))
    simpa using hne

theorem length_takeWhile_reverse_cons (c : Char) (cs : List Char) :
    ((c :: cs).reverse.takeWhile (· != '\n')).length =
      if '\n' ∈ cs then (cs.reverse.takeWhile (· != '\n')).length
      else if c = '\n' then cs.length else cs.length + 1 := by
  rw [List.reverse_cons, List.takeWhile_append]
  by_cases hmem : '\n' ∈ cs
  · have hlt : (cs.reverse.takeWhile (· != '\n')).length ≠ cs.reverse.length := by
      intro hlength
      have hall := (List.takeWhile_prefix (· != '\n')).eq_of_length hlength
      exact takeWhile_reverse_eq_self_iff.mp hall hmem
    rw [if_neg hlt, if_pos hmem]
  · rw [if_pos (by rw [takeWhile_reverse_eq_self_iff.mpr hmem]), if_neg hmem]
    by_cases hc : c = '\n'
    · simp [hc]
    · simp [hc]

/-- Walking over some characters counts line feeds, and columns from the last of them on. -/
theorem positionFrom_append (line column : Nat) (front back : List Char) :
    positionFrom line column (byteLength front) (front ++ back) =
      ⟨line + front.count '\n',
        if '\n' ∈ front then (front.reverse.takeWhile (· != '\n')).length
        else column + front.length⟩ := by
  induction front generalizing line column with
  | nil => cases back <;> simp [positionFrom]
  | cons c cs ih =>
    have hsize : 0 < c.utf8Size := c.utf8Size_pos
    have hpositive : byteLength (c :: cs) ≠ 0 := by
      rw [byteLength_cons]
      omega
    have hwhole : ¬ byteLength (c :: cs) < c.utf8Size := by
      rw [byteLength_cons]
      omega
    have hrest : byteLength (c :: cs) - c.utf8Size = byteLength cs := by
      rw [byteLength_cons]
      omega
    rw [List.cons_append, positionFrom, if_neg hpositive, if_neg hwhole, hrest,
      length_takeWhile_reverse_cons]
    by_cases hc : c = '\n'
    · rw [if_pos hc, ih, hc]
      by_cases hmem : '\n' ∈ cs
      · simp [hmem, Nat.add_assoc, Nat.add_comm 1]
      · simp [hmem, Nat.add_assoc, Nat.add_comm 1]
    · rw [if_neg hc, ih]
      by_cases hmem : '\n' ∈ cs
      · simp [hmem, hc]
      · simp [hmem, hc, Ne.symm hc, Nat.add_assoc, Nat.add_comm 1]

theorem position_byteLength {text : String} {front back : List Char}
    (h : text.toList = front ++ back) :
    position text (byteLength front) = .after front := by
  rw [position, h, positionFrom_append, Position.after]
  by_cases hmem : '\n' ∈ front
  · simp [hmem]
  · simp [hmem, takeWhile_reverse_eq_self_iff.mpr hmem]

def terminated (lines : List (List Char)) : List Char :=
  lines.flatMap (· ++ ['\n'])

def introduced (lines : List (List Char)) : List Char :=
  lines.flatMap ('\n' :: ·)

theorem introduced_append_feed (lines : List (List Char)) :
    introduced lines ++ ['\n'] = '\n' :: terminated lines := by
  induction lines with
  | nil => rfl
  | cons line lines ih =>
    simp only [introduced, terminated, List.flatMap_cons, List.append_assoc] at ih ⊢
    simp [ih]

theorem introduced_split (cs : List Char) : introduced (split cs) = '\n' :: cs := by
  fun_induction split cs with
  | case1 => rfl
  | case2 cs ih =>
    simp only [introduced, List.flatMap_cons] at ih ⊢
    simp [ih]
  | case3 c cs _ hnil => exact absurd hnil (split_ne_nil cs)
  | case4 c cs _ line lines hcons ih =>
    simp only [hcons, introduced, List.flatMap_cons, List.cons_append, List.cons.injEq,
      true_and] at ih ⊢
    exact ih

theorem not_mem_of_mem_split {cs line : List Char} (h : line ∈ split cs) : '\n' ∉ line := by
  fun_induction split cs generalizing line with
  | case1 => simp_all
  | case2 cs ih =>
    rcases List.mem_cons.mp h with rfl | h
    · simp
    · exact ih h
  | case3 c cs _ hnil => exact absurd hnil (split_ne_nil cs)
  | case4 c cs hc first lines hcons ih =>
    rcases List.mem_cons.mp h with rfl | h
    · have hfirst : '\n' ∉ first := ih (by simp [hcons])
      simp [hfirst, Ne.symm hc]
    · exact ih (by simp [hcons, h])

theorem length_split (cs : List Char) : (split cs).length = cs.count '\n' + 1 := by
  fun_induction split cs with
  | case1 => rfl
  | case2 cs ih => simp [ih]
  | case3 c cs _ hnil => exact absurd hnil (split_ne_nil cs)
  | case4 c cs hc line lines hcons ih => simpa [hcons, hc] using ih

/-- A text is its lines with a line feed between any two. -/
theorem eq_of_split {cs line : List Char} {lines rest : List (List Char)}
    (h : split cs = lines ++ line :: rest) : cs = terminated lines ++ line ++ introduced rest := by
  have hcs := introduced_split cs
  have hfeed : introduced lines ++ '\n' :: line = '\n' :: (terminated lines ++ line) := by
    rw [← List.cons_append, ← introduced_append_feed, List.append_assoc, List.singleton_append]
  have hjoin : introduced (lines ++ line :: rest) =
      (introduced lines ++ '\n' :: line) ++ introduced rest := by
    simp [introduced]
  rw [h, hjoin, hfeed, List.cons_append] at hcs
  exact (List.cons.inj hcs).2.symm

theorem eq_of_split_concat {cs line : List Char} {lines : List (List Char)}
    (h : split cs = lines ++ [line]) : cs = terminated lines ++ line := by
  simpa [introduced] using eq_of_split h

theorem exists_split_eq_concat (cs : List Char) : ∃ lines last, split cs = lines ++ [last] :=
  ⟨_, _, (List.dropLast_concat_getLast (split_ne_nil cs)).symm⟩

/-- Two texts in a row share the line in which the first one ends. -/
theorem split_append {front back before behind : List Char} {lines rest : List (List Char)}
    (hfront : split front = lines ++ [before]) (hback : split back = behind :: rest) :
    split (front ++ back) = lines ++ (before ++ behind) :: rest := by
  induction front generalizing lines before with
  | nil =>
    have hconcat : [] ++ [[]] = lines ++ [before] := hfront
    obtain ⟨rfl, rfl⟩ := List.append_singleton_inj.mp hconcat
    exact hback
  | cons c cs ih =>
    obtain ⟨init, last, hlast⟩ := exists_split_eq_concat cs
    rw [List.cons_append, split, ih hlast]
    rw [split, hlast] at hfront
    by_cases hc : c = '\n'
    · rw [if_pos hc] at hfront ⊢
      have hconcat : ([] :: init) ++ [last] = lines ++ [before] := hfront
      obtain ⟨rfl, rfl⟩ := List.append_singleton_inj.mp hconcat
      rfl
    · rw [if_neg hc] at hfront ⊢
      cases init with
      | nil =>
        have hconcat : [] ++ [c :: last] = lines ++ [before] := hfront
        obtain ⟨rfl, rfl⟩ := List.append_singleton_inj.mp hconcat
        rfl
      | cons first init =>
        have hconcat : ((c :: first) :: init) ++ [last] = lines ++ [before] := hfront
        obtain ⟨rfl, rfl⟩ := List.append_singleton_inj.mp hconcat
        rfl

theorem bytesBefore_length (lines rest : List (List Char)) :
    bytesBefore lines.length (lines ++ rest) = byteLength (terminated lines) := by
  induction lines with
  | nil => rfl
  | cons line lines ih =>
    have hsplit : terminated (line :: lines) = line ++ '\n' :: terminated lines := by
      simp [terminated]
    rw [List.length_cons, List.cons_append, bytesBefore, ih, hsplit, byteLength_append,
      byteLength_cons, Nat.add_assoc]
    rfl

/-- The position behind some characters is told by the lines that they make up. -/
theorem after_of_split {cs before : List Char} {lines : List (List Char)}
    (h : split cs = lines ++ [before]) : Position.after cs = ⟨lines.length, before.length⟩ := by
  have hcount : cs.count '\n' = lines.length := by
    have hlength := length_split cs
    rw [h, List.length_append, List.length_singleton] at hlength
    omega
  have hcs := eq_of_split_concat h
  have hmem : before ∈ split cs := by simp [h]
  have hbefore := not_mem_of_mem_split hmem
  have hall : ∀ c ∈ before.reverse, (c != '\n') = true := by
    intro c hc
    have hne : c ≠ '\n' := fun heq => hbefore (heq ▸ List.mem_reverse.mp hc)
    simpa using hne
  have hcolumn : cs.reverse.takeWhile (· != '\n') = before.reverse := by
    rw [hcs, List.reverse_append, List.takeWhile_append_of_pos hall]
    -- What precedes the last piece ends with a line feed, or there is nothing.
    rcases List.eq_nil_or_concat lines with rfl | ⟨init, last, rfl⟩
    · simp [terminated]
    · simp [terminated]
  rw [Position.after, hcount, hcolumn, List.length_reverse]

/-- The offset lies in the line behind `lines` and cuts it into `before` and `behind`. -/
structure Cut (text : String) (offset : Nat) (lines : List (List Char))
    (before behind : List Char) (rest : List (List Char)) : Prop where
  split_eq : split text.toList = lines ++ (before ++ behind) :: rest
  offset_eq : offset = byteLength (terminated lines ++ before)

variable {text : String} {offset : Nat} {lines rest : List (List Char)} {before behind : List Char}

theorem Cut.toList_eq (h : Cut text offset lines before behind rest) :
    text.toList = (terminated lines ++ before) ++ (behind ++ introduced rest) := by
  rw [eq_of_split h.split_eq]
  simp

theorem Cut.isBoundary (h : Cut text offset lines before behind rest) : IsBoundary text offset :=
  ⟨_, _, h.toList_eq, h.offset_eq⟩

theorem exists_cut_of_append {front back : List Char} (h : text.toList = front ++ back) :
    ∃ lines before behind rest, Cut text (byteLength front) lines before behind rest ∧
      split front = lines ++ [before] ∧ split back = behind :: rest := by
  obtain ⟨lines, before, hfront⟩ := exists_split_eq_concat front
  obtain ⟨behind, rest, hback⟩ := List.exists_cons_of_ne_nil (split_ne_nil back)
  have hoffset := eq_of_split_concat hfront
  refine ⟨lines, before, behind, rest, ⟨?_, by rw [← hoffset]⟩, hfront, hback⟩
  rw [h, split_append hfront hback]

theorem split_of_not_mem {line : List Char} (h : '\n' ∉ line) : split line = [line] := by
  have hlength := length_split line
  rw [List.count_eq_zero.mpr h] at hlength
  obtain ⟨only, honly⟩ := List.length_eq_one_iff.mp hlength
  have hline : line = terminated [] ++ only := eq_of_split_concat honly
  rw [honly, hline]
  rfl

theorem split_terminated {lines : List (List Char)} {before : List Char}
    (hlines : ∀ line ∈ lines, '\n' ∉ line) (hbefore : '\n' ∉ before) :
    split (terminated lines ++ before) = lines ++ [before] := by
  induction lines with
  | nil => exact split_of_not_mem hbefore
  | cons line lines ih =>
    have hline := split_of_not_mem (hlines line List.mem_cons_self)
    have hrest := ih fun l hl => hlines l (List.mem_cons_of_mem _ hl)
    have hfeed : split ('\n' :: (terminated lines ++ before)) = [] :: (lines ++ [before]) := by
      rw [split, if_pos rfl, hrest]
    have hsplit : terminated (line :: lines) ++ before =
        line ++ '\n' :: (terminated lines ++ before) := by simp [terminated]
    have hwhole : split (line ++ '\n' :: (terminated lines ++ before)) =
        [] ++ (line ++ []) :: (lines ++ [before]) := split_append hline hfeed
    rw [hsplit, hwhole, List.append_nil]
    rfl

theorem Cut.position_eq (h : Cut text offset lines before behind rest) :
    position text offset = ⟨lines.length, before.length⟩ := by
  have hfeed : ∀ line ∈ lines ++ (before ++ behind) :: rest, '\n' ∉ line :=
    fun line hline => not_mem_of_mem_split (h.split_eq ▸ hline)
  have hbefore : '\n' ∉ before :=
    fun hmem => hfeed (before ++ behind) (by simp) (List.mem_append_left _ hmem)
  rw [h.offset_eq, position_byteLength h.toList_eq]
  exact after_of_split (split_terminated (fun line hline => hfeed line (by simp [hline])) hbefore)

/-- A line is what is left of it without a carriage return, and the carriage return if there is
one. -/
theorem exists_eq_dropReturn_append (line : List Char) :
    ∃ mark, line = dropReturn line ++ mark := by
  unfold dropReturn
  split
  next h =>
    obtain ⟨init, rfl⟩ := List.getLast?_eq_some_iff.mp h
    exact ⟨['\r'], by rw [List.dropLast_concat]⟩
  next => exact ⟨[], (List.append_nil line).symm⟩

theorem dropReturn_append {before behind : List Char} (h : behind ≠ []) :
    dropReturn (before ++ behind) = before ++ dropReturn behind := by
  have hlast : (before ++ behind).getLast? = behind.getLast? := by
    rw [List.getLast?_append, List.getLast?_eq_some_getLast h, Option.some_or]
  unfold dropReturn
  rw [hlast]
  split
  · exact List.dropLast_append_of_ne_nil h
  · rfl

section lines

variable {line : List Char} {n : Nat}

/-- The lines before a line that there is. -/
theorem exists_split_of_lt (h : n < count text) :
    ∃ lines line rest, split text.toList = lines ++ line :: rest ∧ lines.length = n := by
  refine ⟨(split text.toList).take n, (split text.toList)[n], (split text.toList).drop (n + 1), ?_,
    List.length_take_of_le h.le⟩
  rw [← List.drop_eq_getElem_cons h, List.take_append_drop]

theorem lt_count_of_chars? {cs : List Char} (h : chars? text n = some cs) : n < count text := by
  obtain ⟨line, hline, -⟩ := Option.map_eq_some_iff.mp h
  exact (List.getElem?_eq_some_iff.mp hline).1

theorem chars?_of_split (h : split text.toList = lines ++ line :: rest) :
    chars? text lines.length = some (dropReturn line) := by
  simp [chars?, h]

theorem start_of_split (h : split text.toList = lines ++ line :: rest) :
    start text lines.length = byteLength (terminated lines) := by
  rw [start, h, bytesBefore_length]

theorem offset?_of_split (h : split text.toList = lines ++ line :: rest) (column : Nat) :
    offset? text ⟨lines.length, column⟩ =
      some (byteLength (terminated lines ++ (dropReturn line).take column)) := by
  rw [offset?, chars?_of_split h, Option.map_some, start_of_split h, byteLength_append]

/-- A column cuts its line, at the end of the line if it lies behind it. -/
theorem exists_cut_of_column (h : split text.toList = lines ++ line :: rest) (column : Nat) :
    ∃ behind, Cut text (byteLength (terminated lines ++ (dropReturn line).take column)) lines
      ((dropReturn line).take column) behind rest := by
  obtain ⟨mark, hmark⟩ := exists_eq_dropReturn_append line
  refine ⟨(dropReturn line).drop column ++ mark, ?_, rfl⟩
  rw [← List.append_assoc, List.take_append_drop, ← hmark, h]

/-- The text between the ends of a line is the line. -/
theorem isSlice_of_split (h : split text.toList = lines ++ line :: rest) :
    IsSlice text ⟨start text lines.length, start text lines.length + byteLength (dropReturn line)⟩
      (String.ofList (dropReturn line)) := by
  obtain ⟨mark, hmark⟩ := exists_eq_dropReturn_append line
  refine ⟨terminated lines, mark ++ introduced rest, ?_, ?_⟩
  · rw [eq_of_split h, String.toList_ofList, List.append_assoc _ _ (mark ++ _),
      ← List.append_assoc (dropReturn line), ← hmark, List.append_assoc]
  · rw [start_of_split h, String.toList_ofList, byteLength_append]

end lines

/-- The offset stands behind a carriage return that belongs to the end of its line: a line feed
follows, or the end of the text. -/
def BehindReturn (text : String) (offset : Nat) : Prop :=
  ∃ front back, text.toList = front ++ '\r' :: back ∧ offset = byteLength front + 1 ∧
    (back = [] ∨ ∃ rest, back = '\n' :: rest)

theorem introduced_eq (rest : List (List Char)) :
    introduced rest = [] ∨ ∃ more, introduced rest = '\n' :: more := by
  cases rest with
  | nil => exact Or.inl rfl
  | cons line rest => exact Or.inr ⟨line ++ introduced rest, by simp [introduced]⟩

/-- A cut is found again, unless it stands at the end of a line and drops its carriage return. -/
theorem Cut.offset?_position (h : Cut text offset lines before behind rest)
    (hreturn : ¬ BehindReturn text offset) : offset? text (position text offset) = some offset := by
  have hkept : (dropReturn (before ++ behind)).take before.length = before := by
    by_cases hbehind : behind = []
    · subst hbehind
      have hlast : before.getLast? ≠ some '\r' := by
        intro hlast
        obtain ⟨init, rfl⟩ := List.getLast?_eq_some_iff.mp hlast
        refine hreturn ⟨terminated lines ++ init, introduced rest, ?_, ?_, introduced_eq rest⟩
        · simpa using h.toList_eq
        · rw [h.offset_eq, ← List.append_assoc, byteLength_append]
          rfl
      rw [List.append_nil, dropReturn, if_neg hlast, List.take_length]
    · rw [dropReturn_append hbehind, List.take_left]
  rw [h.position_eq, offset?_of_split h.split_eq, hkept, h.offset_eq]

theorem BehindReturn.offset?_position (h : BehindReturn text offset) :
    offset? text (position text offset) = some (offset - 1) := by
  obtain ⟨front, back, htext, hoffset, hback⟩ := h
  obtain ⟨lines, before, behind, rest, -, hfront, -⟩ := exists_cut_of_append htext
  have hreturn : split (front ++ ['\r']) = lines ++ [before ++ ['\r']] :=
    split_append hfront (split_of_not_mem (by decide))
  have hsplit : ∃ rest, split back = [] :: rest := by
    rcases hback with rfl | ⟨more, rfl⟩
    · exact ⟨[], rfl⟩
    · exact ⟨split more, by rw [split, if_pos rfl]⟩
  obtain ⟨rest, hsplit⟩ := hsplit
  have htext' : text.toList = (front ++ ['\r']) ++ back := by simp [htext]
  have hwhole := split_append hreturn hsplit
  rw [← htext', List.append_nil] at hwhole
  have hfront' := eq_of_split_concat hfront
  have hlength : byteLength (front ++ ['\r']) = offset := by
    rw [hoffset, byteLength_append]
    rfl
  have hdrop : dropReturn (before ++ ['\r']) = before := by simp [dropReturn]
  rw [← hlength, position_byteLength htext', after_of_split hreturn, offset?_of_split hwhole, hdrop,
    List.take_of_length_le (by simp), ← hfront', hlength, hoffset, Nat.add_sub_cancel]

end Lines

def Position.Before (p q : Position) : Prop :=
  p.line < q.line ∨ p.line = q.line ∧ p.column < q.column

namespace Lines

theorem before_after_append (front : List Char) {more : List Char} (h : more ≠ []) :
    (Position.after front).Before (Position.after (front ++ more)) := by
  obtain ⟨lines, before, hfront⟩ := exists_split_eq_concat front
  obtain ⟨behind, rest, hmore⟩ := List.exists_cons_of_ne_nil (split_ne_nil more)
  have hwhole := split_append hfront hmore
  rw [after_of_split hfront]
  rcases List.eq_nil_or_concat rest with rfl | ⟨init, last, rfl⟩
  · have hmore' : more = terminated [] ++ behind := eq_of_split_concat hmore
    have hbehind : behind ≠ [] := by rwa [hmore'] at h
    have hpos := List.length_pos_iff.mpr hbehind
    rw [after_of_split hwhole]
    refine Or.inr ⟨rfl, ?_⟩
    simp only [List.length_append]
    omega
  · rw [List.concat_eq_append, ← List.cons_append, ← List.append_assoc] at hwhole
    rw [after_of_split hwhole]
    refine Or.inl ?_
    simp only [List.length_append, List.length_cons]
    omega

theorem position_before_of_lt {text : String} {o o' : Nat} (ho : IsBoundary text o)
    (ho' : IsBoundary text o') (h : o < o') : (position text o).Before (position text o') := by
  obtain ⟨front, back, htext, rfl⟩ := ho
  obtain ⟨front', back', htext', rfl⟩ := ho'
  rw [position_byteLength htext, position_byteLength htext']
  rcases List.append_eq_append_iff.mp (htext.symm.trans htext') with ⟨more, rfl, -⟩ | ⟨more, rfl, -⟩
  · refine before_after_append front ?_
    rintro rfl
    simp at h
  · rw [byteLength_append] at h
    omega

/-- Offsets between characters and positions are inverse, up to the carriage return at the end of a
line, and in the same order; there is one line more than there are line feeds; and the ranges of
lines and the offsets of positions stand between characters. -/
theorem position_and_offset_inverse (text : String) :
    (∀ o, IsBoundary text o → ¬ BehindReturn text o → offset? text (position text o) = some o) ∧
      (∀ o, BehindReturn text o → offset? text (position text o) = some (o - 1)) ∧
      (∀ n < count text, ∀ column, ∃ line o, line? text n = some line ∧
        offset? text ⟨n, column⟩ = some o ∧ position text o = ⟨n, min column line.length⟩) ∧
      (∀ o o', IsBoundary text o → IsBoundary text o' → o < o' →
        (position text o).Before (position text o')) ∧
      count text = text.toList.count '\n' + 1 ∧
      (∀ n range, range? text n = some range → ∃ line, line? text n = some line ∧
        IsSlice text range line) ∧
      ∀ p o, offset? text p = some o → IsBoundary text o := by
  refine ⟨?_, fun o ho => ho.offset?_position, ?_, fun o o' => position_before_of_lt,
    length_split text.toList, ?_, ?_⟩
  · rintro o ⟨front, back, htext, rfl⟩ hreturn
    obtain ⟨lines, before, behind, rest, hcut, -⟩ := exists_cut_of_append htext
    exact hcut.offset?_position hreturn
  · intro n hn column
    obtain ⟨lines, line, rest, hsplit, rfl⟩ := exists_split_of_lt hn
    obtain ⟨behind, hcut⟩ := exists_cut_of_column hsplit column
    refine ⟨_, _, by rw [line?, chars?_of_split hsplit, Option.map_some],
      offset?_of_split hsplit column, ?_⟩
    rw [hcut.position_eq, List.length_take, String.length_ofList]
  · intro n range hrange
    obtain ⟨cs, hcs, rfl⟩ := Option.map_eq_some_iff.mp hrange
    obtain ⟨lines, line, rest, hsplit, rfl⟩ := exists_split_of_lt (lt_count_of_chars? hcs)
    obtain rfl := Option.some.inj ((chars?_of_split hsplit).symm.trans hcs)
    exact ⟨_, by rw [line?, hcs, Option.map_some], isSlice_of_split hsplit⟩
  · rintro ⟨n, column⟩ o ho
    obtain ⟨cs, hcs, -⟩ := Option.map_eq_some_iff.mp ho
    obtain ⟨lines, line, rest, hsplit, rfl⟩ := exists_split_of_lt (lt_count_of_chars? hcs)
    obtain ⟨behind, hcut⟩ := exists_cut_of_column hsplit column
    obtain rfl := Option.some.inj ((offset?_of_split hsplit column).symm.trans ho)
    exact hcut.isBoundary

def carriageReturns : String := "é\r\nb\r"

theorem position_and_offset_of_carriageReturns :
    (IsBoundary carriageReturns 2 ∧ ¬ BehindReturn carriageReturns 2 ∧
        offset? carriageReturns (position carriageReturns 2) = some 2) ∧
      (BehindReturn carriageReturns 3 ∧
        offset? carriageReturns (position carriageReturns 3) = some 2) ∧
      (BehindReturn carriageReturns 6 ∧
        offset? carriageReturns (position carriageReturns 6) = some 5) ∧
      (position carriageReturns 3).Before (position carriageReturns 4) ∧
      count carriageReturns = 2 := by
  obtain ⟨hkept, hdropped, -, hbefore, hcount, -⟩ := position_and_offset_inverse carriageReturns
  have htext : carriageReturns.toList = ['é', '\r', '\n', 'b', '\r'] := by decide
  have htwo : IsBoundary carriageReturns 2 := ⟨['é'], _, htext, by decide⟩
  have hthree : BehindReturn carriageReturns 3 :=
    ⟨['é'], _, htext, by decide, Or.inr ⟨_, rfl⟩⟩
  have hsix : BehindReturn carriageReturns 6 :=
    ⟨['é', '\r', '\n', 'b'], _, htext, by decide, Or.inl rfl⟩
  have hother : ¬ BehindReturn carriageReturns 2 := by
    rintro ⟨front, back, hsplit, hoffset, -⟩
    rw [htext] at hsplit
    cases front with
    | nil => cases hoffset
    | cons c cs =>
      obtain ⟨rfl, -⟩ := List.cons.inj hsplit
      have hsize : 'é'.utf8Size = 2 := by decide
      rw [byteLength_cons, hsize] at hoffset
      omega
  refine ⟨⟨htwo, hother, hkept 2 htwo hother⟩, ⟨hthree, hdropped 3 hthree⟩,
    ⟨hsix, hdropped 6 hsix⟩, hbefore 3 4 ?_ ?_ (by decide), ?_⟩
  · exact ⟨['é', '\r'], _, htext, by decide⟩
  · exact ⟨['é', '\r', '\n'], _, htext, by decide⟩
  · rw [hcount, htext]
    decide

end Lines

end SolidityCompass
