import BehaviorIndex.Markup.Cursor
import BehaviorIndex.Proofs.Text.Lines
import Mathlib.Order.Bounds.Basic

/-!
# Offsets and columns

A place in a text is named in two ways: by its offset, in bytes, and by its line and column, in
units. A line index turns offsets into positions, and a cursor turns the columns of a line back into
offsets.

**Theorem (`position_byteOffset`).** On the text of a line the two undo each other. An offset
between two characters gives a column that leads back to it. A column leads to an offset between two
characters, and that offset gives the next column between two characters, or the end of the line.

A text is cut into what stands before a line, the text of the line, and what ends it
(`exists_line`). An offset on the line is then the size of the part before it and of a beginning of
the line, and the column is the units of that beginning.
-/

namespace BehaviorIndex.Text

/-- The offset is between two characters, or at one of the ends of the text. -/
def IsBoundary (text : List Char) (offset : Nat) : Prop :=
  ∃ front, front <+: text ∧ byteSize front = offset

/-- The columns between the characters of a line, its ends included. -/
def columns (line : List Char) : Set Nat :=
  {column | ∃ front, front <+: line ∧ units front = column}

/-! ## The lines of an index -/

theorem length_starts (text : List Char) :
    (LineIndex.ofText text).starts.length = text.count '\n' + 1 := by
  simp [LineIndex.ofText, length_lineStarts]

theorem prefix_of_byteSize_le {text xs ys : List Char} (hxs : xs <+: text) (hys : ys <+: text)
    (h : byteSize xs ≤ byteSize ys) : xs <+: ys := by
  rcases List.prefix_or_prefix_of_prefix hxs hys with hprefix | ⟨more, rfl⟩
  · exact hprefix
  · -- The longer of the two has nothing more.
    by_cases hmore : more = []
    · simp [hmore]
    · have := byteSize_pos hmore
      rw [byteSize_append] at h
      omega

/-- The part of a text before a line ends with a line feed. -/
theorem exists_front {text : List Char} {line : Nat} (h : line ≤ text.count '\n') :
    ∃ front rest, text = front ++ rest ∧ front.count '\n' = line ∧
      (front = [] ∨ ∃ lines, front = lines ++ ['\n']) := by
  induction line with
  | zero => exact ⟨[], text, rfl, rfl, .inl rfl⟩
  | succ line ih =>
    obtain ⟨front, rest, rfl, hcount, -⟩ := ih (by omega)
    have hfeed : '\n' ∈ rest := by
      rw [List.count_append] at h
      exact List.count_pos_iff.mp (by omega)
    obtain ⟨body, rest, rfl, hbody⟩ := List.eq_append_cons_of_mem hfeed
    refine ⟨front ++ body ++ ['\n'], rest, by simp, ?_, .inr ⟨front ++ body, rfl⟩⟩
    simp [List.count_append, hcount, List.count_eq_zero.mpr hbody]

/-- What a text holds up to its first line feed, and the rest. -/
theorem exists_upToFeed (text : List Char) :
    ∃ body rest, text = body ++ rest ∧ '\n' ∉ body ∧ (rest = [] ∨ ∃ more, rest = '\n' :: more) := by
  by_cases hfeed : '\n' ∈ text
  · obtain ⟨body, more, rfl, hbody⟩ := List.eq_append_cons_of_mem hfeed
    exact ⟨body, '\n' :: more, rfl, hbody, .inr ⟨more, rfl⟩⟩
  · exact ⟨text, [], by simp, hfeed, .inl rfl⟩

/-- What stands before a line, what stands on it up to its line feed, and the rest. -/
theorem exists_body {text : List Char} {line : Nat} (h : line ≤ text.count '\n') :
    ∃ front body rest, text = front ++ body ++ rest ∧ front.count '\n' = line ∧
      (front = [] ∨ ∃ lines, front = lines ++ ['\n']) ∧ '\n' ∉ body ∧
      (rest = [] ∨ ∃ more, rest = '\n' :: more) := by
  obtain ⟨front, behind, rfl, hcount, hfront⟩ := exists_front h
  obtain ⟨body, rest, rfl, hbody, hrest⟩ := exists_upToFeed behind
  exact ⟨front, body, rest, by rw [List.append_assoc], hcount, hfront, hbody, hrest⟩

theorem dropWhile_feed_reverse {body : List Char} (h : '\n' ∉ body) :
    body.reverse.dropWhile (· == '\n') = body.reverse := by
  cases hbody : body.reverse with
  | nil => rfl
  | cons c cs =>
    have hc : c ∈ body := List.mem_reverse.mp (hbody ▸ List.mem_cons_self)
    refine List.dropWhile_cons_of_neg ?_
    rw [beq_iff_eq]
    rintro rfl
    exact h hc

/-- What stands on a line up to its line feed, without the carriage returns at the end. -/
def withoutReturns (body : List Char) : List Char := (body.reverse.dropWhile (· == '\r')).reverse

theorem isPrefix_withoutReturns (body : List Char) : withoutReturns body <+: body := by
  rw [withoutReturns, ← List.reverse_suffix, List.reverse_reverse]
  exact List.dropWhile_suffix _

namespace LineIndex

theorem getElem?_starts_front {front : List Char}
    (hfront : front = [] ∨ ∃ lines, front = lines ++ ['\n']) (rest : List Char) :
    (ofText (front ++ rest)).starts[front.count '\n']? = some (byteSize front) := by
  have hlength : front.count '\n' < (ofText (front ++ rest)).starts.length := by
    rw [length_starts, List.count_append]
    omega
  rw [← getD_starts_front hfront rest, List.getD_eq_getElem _ _ hlength, List.getElem?_eq_getElem]

/-- The line ends before a line feed, or with the text. -/
theorem lineText?_front {front body : List Char}
    (hfront : front = [] ∨ ∃ lines, front = lines ++ ['\n']) (hbody : '\n' ∉ body)
    {rest : List Char} (hrest : rest = [] ∨ ∃ more, rest = '\n' :: more) :
    (ofText (front ++ body ++ rest)).lineText? (front.count '\n') = some (withoutReturns body) := by
  have hstart := getElem?_starts_front hfront (body ++ rest)
  rw [← List.append_assoc] at hstart
  rw [lineText?, hstart, Option.map_some, withoutReturns]
  have hdrop : dropBytes (byteSize front) (ofText (front ++ body ++ rest)).text = body ++ rest := by
    rw [ofText, List.append_assoc]
    exact dropBytes_byteSize front (body ++ rest)
  simp only [hdrop]
  rcases hrest with rfl | ⟨more, rfl⟩
  · -- The last line goes to the end of the text.
    have hnone : (ofText (front ++ body ++ [])).starts[front.count '\n' + 1]? = none := by
      rw [List.getElem?_eq_none_iff, length_starts]
      simp [List.count_append, List.count_eq_zero.mpr hbody]
    have hsize : byteSize (ofText (front ++ body ++ [])).text - byteSize front = byteSize body := by
      simp [ofText]
    rw [List.getD_eq_getElem?_getD, hnone, Option.getD_none, hsize, takeBytes_byteSize,
      dropWhile_feed_reverse hbody]
  · -- Any other line goes to the start of the next one, behind the line feed.
    have hnext := @getElem?_starts_front (front ++ body ++ ['\n']) (.inr ⟨front ++ body, rfl⟩) more
    have hcount : (front ++ body ++ ['\n']).count '\n' = front.count '\n' + 1 := by
      simp [List.count_append, List.count_eq_zero.mpr hbody]
    rw [hcount, List.append_assoc, List.singleton_append] at hnext
    have hsize : byteSize (front ++ body ++ ['\n']) - byteSize front =
        byteSize (body ++ ['\n']) := by
      rw [List.append_assoc, byteSize_append, Nat.add_sub_cancel_left]
    have htake := takeBytes_byteSize (body ++ ['\n']) more
    rw [List.append_assoc, List.singleton_append] at htake
    rw [List.getD_eq_getElem?_getD, hnext, Option.getD_some, hsize, htake, List.reverse_append,
      List.reverse_singleton, List.singleton_append, List.dropWhile_cons_of_pos (by rfl),
      dropWhile_feed_reverse hbody]

/-- **A line.** A text is cut into what stands before a line, the text of the line, and the rest. -/
theorem exists_line {text : List Char} {number start : Nat}
    (hstart : (ofText text).starts[number]? = some start) :
    ∃ front line rest, (ofText text).lineText? number = some line ∧
      text = front ++ line ++ rest ∧ start = byteSize front ∧ number = front.count '\n' ∧
      (front = [] ∨ ∃ lines, front = lines ++ ['\n']) ∧ '\n' ∉ line := by
  have hnumber : number ≤ text.count '\n' := by
    have := (List.getElem?_eq_some_iff.mp hstart).1
    rw [length_starts] at this
    omega
  obtain ⟨front, body, rest, rfl, rfl, hfront, hbody, hrest⟩ := exists_body hnumber
  have hline := lineText?_front hfront hbody hrest
  rw [List.append_assoc, getElem?_starts_front hfront, Option.some_inj] at hstart
  obtain ⟨returns, hreturns⟩ := isPrefix_withoutReturns body
  refine ⟨front, withoutReturns body, returns ++ rest, hline, ?_, hstart.symm, rfl, hfront, ?_⟩
  · rw [List.append_assoc, List.append_assoc, ← List.append_assoc _ returns, hreturns]
  · exact fun hmem => hbody ((isPrefix_withoutReturns body).subset hmem)

end LineIndex

end BehaviorIndex.Text

namespace BehaviorIndex.Markup

open Text

/-! ## Columns -/

theorem splitColumn_append (column : Nat) (line : List Char) :
    (splitColumn column line).1 ++ (splitColumn column line).2 = line := by
  fun_induction splitColumn column line with
  | case1 => rfl
  | case2 => rfl
  | case3 column c cs _ before after h ih =>
    rw [h] at ih
    rw [List.cons_append, ih]

theorem splitColumn_prefix (column : Nat) (line : List Char) :
    (splitColumn column line).1 <+: line := ⟨_, splitColumn_append column line⟩

/-- The column behind a beginning of a line splits the line there. -/
theorem splitColumn_units (xs ys : List Char) : splitColumn (units xs) (xs ++ ys) = (xs, ys) := by
  induction xs with
  | nil =>
    cases ys with
    | nil => rfl
    | cons y ys => rfl
  | cons x xs ih =>
    have hpos : units (x :: xs) ≠ 0 := Nat.ne_of_gt (units_pos (List.cons_ne_nil x xs))
    have hrest : units (x :: xs) - unitSize x = units xs := by
      rw [units, Nat.add_sub_cancel_left]
    rw [List.cons_append, splitColumn]
    · rw [hrest, ih]
    · exact hpos

/-- A column splits a line no further than any beginning of the line that reaches it. -/
theorem splitColumn_prefix_of_le {column : Nat} {line front : List Char} (hfront : front <+: line)
    (h : column ≤ units front) : (splitColumn column line).1 <+: front := by
  fun_induction splitColumn column line generalizing front with
  | case1 => exact List.nil_prefix
  | case2 => exact List.nil_prefix
  | case3 column c cs hcolumn before after hsplit ih =>
    cases front with
    | nil => exact absurd (Nat.le_zero.mp h) hcolumn
    | cons d front =>
      obtain ⟨rfl, hrest⟩ := List.cons_prefix_cons.mp hfront
      rw [hsplit] at ih
      rw [units] at h
      exact List.cons_prefix_cons.mpr ⟨rfl, ih hrest (by omega)⟩

/-- A column within a line is reached. -/
theorem le_units_splitColumn {column : Nat} {line : List Char} (h : column ≤ units line) :
    column ≤ units (splitColumn column line).1 := by
  fun_induction splitColumn column line with
  | case1 => exact h
  | case2 => exact Nat.zero_le _
  | case3 column c cs hcolumn before after hsplit ih =>
    rw [hsplit] at ih
    rw [units] at h
    have hrest : column - unitSize c ≤ units before := ih (by omega)
    show column ≤ unitSize c + units before
    omega

theorem splitColumn_of_units_lt {column : Nat} {line : List Char} (h : units line < column) :
    (splitColumn column line).1 = line := by
  fun_induction splitColumn column line with
  | case1 => rfl
  | case2 => exact absurd h (Nat.not_lt_zero _)
  | case3 column c cs hcolumn before after hsplit ih =>
    rw [hsplit] at ih
    rw [units] at h
    exact congrArg (List.cons c) (ih (by omega))

theorem units_le_units {xs ys : List Char} (h : xs <+: ys) : units xs ≤ units ys := by
  obtain ⟨more, rfl⟩ := h
  rw [units_append]
  exact Nat.le_add_right _ _

/-- The next column between two characters of a line, from `column` on; beyond the line, its end. -/
def IsNextColumn (line : List Char) (column next : Nat) : Prop :=
  IsLeast {k | k ∈ columns line ∧ column ≤ k} next ∨
    {k | k ∈ columns line ∧ column ≤ k} = ∅ ∧ next = units line

/-- A column splits a line at the next column between two characters. -/
theorem isNextColumn_splitColumn (column : Nat) (line : List Char) :
    IsNextColumn line column (units (splitColumn column line).1) := by
  by_cases h : column ≤ units line
  · refine .inl ⟨⟨⟨_, splitColumn_prefix column line, rfl⟩, le_units_splitColumn h⟩, ?_⟩
    rintro k ⟨⟨front, hfront, rfl⟩, hk⟩
    exact units_le_units (splitColumn_prefix_of_le hfront hk)
  · refine .inr ⟨?_, by rw [splitColumn_of_units_lt (Nat.not_le.mp h)]⟩
    rw [Set.eq_empty_iff_forall_notMem]
    rintro k ⟨⟨front, hfront, rfl⟩, hk⟩
    exact h (Nat.le_trans hk (units_le_units hfront))

/-- The text of a line with its start: offsets on it and columns lead to each other. -/
structure Inverse (text : List Char) (number start : Nat) (line : List Char) : Prop where
  /-- The column of an offset leads back to the offset. -/
  offset : ∀ o, IsBoundary text o → start ≤ o → o ≤ start + byteSize line →
    ∃ column, toNats ((LineIndex.ofText text).position o) = (number, column) ∧
      start + byteOffset column line = o
  /-- A column leads to an offset on the line. -/
  boundary : ∀ column, IsBoundary text (start + byteOffset column line) ∧
    start ≤ start + byteOffset column line ∧
    start + byteOffset column line ≤ start + byteSize line
  /-- The offset of a column has the next column. -/
  column : ∀ column, ∃ next,
    toNats ((LineIndex.ofText text).position (start + byteOffset column line)) = (number, next) ∧
      IsNextColumn line column next

/-- **Offsets and columns are inverse.** -/
theorem position_byteOffset {text : List Char} (hsize : byteSize text < UInt32.size)
    {number start : Nat} (hstart : (LineIndex.ofText text).starts[number]? = some start) :
    ∃ line, (LineIndex.ofText text).lineText? number = some line ∧
      Inverse text number start line := by
  obtain ⟨front, line, rest, hline, rfl, rfl, rfl, hfront, hfeed⟩ := LineIndex.exists_line hstart
  -- The position behind a beginning of the line.
  have hposition : ∀ xs, xs <+: line → toNats ((LineIndex.ofText (front ++ line ++ rest)).position
      (byteSize front + byteSize xs)) = (front.count '\n', units xs) := by
    rintro xs ⟨more, rfl⟩
    have hxs : '\n' ∉ xs := fun hmem => hfeed (List.mem_append_left _ hmem)
    have hcounts := LineIndex.counts_lastLine hfront hxs (more ++ rest)
    rw [LineIndex.toNats_position hsize, ← byteSize_append]
    simpa only [List.append_assoc] using hcounts
  have hbefore : ∀ column, (splitColumn column line).1 <+: line := fun column =>
    splitColumn_prefix column line
  refine ⟨line, hline, ?_, ?_, ?_⟩
  · rintro o ⟨before, hbefore, rfl⟩ hlow hhigh
    have hline : front ++ line <+: front ++ line ++ rest := List.prefix_append _ _
    obtain ⟨xs, rfl⟩ : front <+: before := prefix_of_byteSize_le
      ((List.prefix_append front line).trans hline) hbefore hlow
    have hxs : xs <+: line := by
      rw [← byteSize_append] at hhigh
      exact (List.prefix_append_right_inj front).mp (prefix_of_byteSize_le hbefore hline hhigh)
    refine ⟨units xs, ?_, ?_⟩
    · rw [byteSize_append]
      exact hposition xs hxs
    · obtain ⟨more, rfl⟩ := hxs
      rw [byteOffset, splitColumn_units, byteSize_append]
  · intro column
    obtain ⟨more, hmore⟩ := hbefore column
    refine ⟨⟨front ++ (splitColumn column line).1, ?_, byteSize_append _ _⟩,
      Nat.le_add_right _ _, ?_⟩
    · refine ⟨more ++ rest, ?_⟩
      rw [List.append_assoc, ← List.append_assoc _ more, hmore, List.append_assoc]
    · rw [byteOffset]
      conv_rhs => rw [← hmore, byteSize_append]
      omega
  · intro column
    exact ⟨_, hposition _ (hbefore column), isNextColumn_splitColumn column line⟩

/-- A line with a character of two bytes and one of two units, ended by a return and a feed. -/
theorem position_byteOffset_clef :
    byteSize "x\né𝄞y\r\n\n".toList < UInt32.size ∧
      Inverse "x\né𝄞y\r\n\n".toList 1 2 "é𝄞y".toList ∧
      (LineIndex.ofText "x\né𝄞y\r\n\n".toList).position (2 + byteOffset 2 "é𝄞y".toList) =
        (1, 3) := by
  have hstart : (LineIndex.ofText "x\né𝄞y\r\n\n".toList).starts[1]? = some 2 := by decide
  have htext : (LineIndex.ofText "x\né𝄞y\r\n\n".toList).lineText? 1 = some "é𝄞y".toList := by
    decide
  have hsize : byteSize "x\né𝄞y\r\n\n".toList < UInt32.size := by decide
  obtain ⟨line, hline, hinverse⟩ := position_byteOffset hsize hstart
  rw [htext, Option.some_inj] at hline
  exact ⟨hsize, hline ▸ hinverse, by decide⟩

end BehaviorIndex.Markup
