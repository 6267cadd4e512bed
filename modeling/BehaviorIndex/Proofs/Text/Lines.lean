import BehaviorIndex.Text.Lines
import Mathlib.Data.List.GetD
import Mathlib.Data.List.Induction

/-!
# Positions

The position of an offset can be told from the text before it, up to the last character that ends
there or earlier (`counts_of_takeBytes`). Its line is the number of line feeds there
(`counts_fst`), and along a line the column grows with the units of the characters
(`counts_snd_append`). So positions come in the order of the text (`counts_before`).

A position keeps 32 bits of each number, which is all there is to them in a text of fewer bytes
(`toNats_position`).
-/

namespace BehaviorIndex.Text

/-! ## Offsets between characters -/

theorem dropBytes_byteSize (xs ys : List Char) : dropBytes (byteSize xs) (xs ++ ys) = ys := by
  induction xs with
  | nil =>
    cases ys with
    | nil => rfl
    | cons y ys => exact if_neg (Nat.not_le.mpr y.utf8Size_pos)
  | cons x xs ih =>
    rw [List.cons_append, dropBytes, byteSize, if_pos (Nat.le_add_right _ _),
      Nat.add_sub_cancel_left, ih]

theorem takeBytes_byteSize (xs ys : List Char) : takeBytes (byteSize xs) (xs ++ ys) = xs := by
  have happend := takeBytes_append_dropBytes (byteSize xs) (xs ++ ys)
  rw [dropBytes_byteSize] at happend
  exact List.append_cancel_right happend

theorem byteSize_pos {cs : List Char} (h : cs ≠ []) : 0 < byteSize cs := by
  cases cs with
  | nil => exact absurd rfl h
  | cons c cs => exact Nat.lt_add_right _ c.utf8Size_pos

theorem units_pos {cs : List Char} (h : cs ≠ []) : 0 < units cs := by
  cases cs with
  | nil => exact absurd rfl h
  | cons c cs =>
    have hpos : 0 < unitSize c := by
      unfold unitSize
      split <;> decide
    exact Nat.lt_add_right _ hpos

theorem takeBytes_isPrefix (offset : Nat) (text : List Char) : takeBytes offset text <+: text :=
  ⟨_, takeBytes_append_dropBytes offset text⟩

theorem byteSize_takeBytes_le (offset : Nat) (text : List Char) :
    byteSize (takeBytes offset text) ≤ offset := by
  induction text generalizing offset with
  | nil => exact Nat.zero_le _
  | cons c text ih =>
    rw [takeBytes]
    split
    · have := ih (offset - c.utf8Size)
      rw [byteSize]
      omega
    · exact Nat.zero_le _

theorem takeBytes_append {offset : Nat} {xs : List Char} (h : byteSize xs ≤ offset)
    (ys : List Char) :
    takeBytes offset (xs ++ ys) = xs ++ takeBytes (offset - byteSize xs) ys := by
  induction xs generalizing offset with
  | nil => rfl
  | cons x xs ih =>
    rw [byteSize] at h ⊢
    rw [List.cons_append, takeBytes, if_pos (by omega), ih (by omega), Nat.sub_sub,
      List.cons_append]

/-- Every beginning of the text that fits is part of the longest one. -/
theorem isPrefix_takeBytes {offset : Nat} {text front : List Char} (hfront : front <+: text)
    (h : byteSize front ≤ offset) : front <+: takeBytes offset text := by
  obtain ⟨rest, rfl⟩ := hfront
  rw [takeBytes_append h]
  exact List.prefix_append _ _

theorem byteSize_le_byteSize {xs ys : List Char} (h : xs <+: ys) : byteSize xs ≤ byteSize ys := by
  obtain ⟨more, rfl⟩ := h
  rw [byteSize_append]
  exact Nat.le_add_right _ _

/-! ## The beginnings of lines -/

theorem lineStarts_append (offset : Nat) (xs ys : List Char) :
    lineStarts offset (xs ++ ys) =
      lineStarts offset xs ++ lineStarts (offset + byteSize xs) ys := by
  induction xs generalizing offset with
  | nil => rfl
  | cons x xs ih =>
    simp only [List.cons_append, lineStarts, ih, byteSize, Nat.add_assoc]
    split <;> rfl

theorem length_lineStarts (offset : Nat) (cs : List Char) :
    (lineStarts offset cs).length = cs.count '\n' := by
  induction cs generalizing offset with
  | nil => rfl
  | cons c cs ih =>
    rw [lineStarts, List.count_cons]
    by_cases hc : c = '\n' <;> simp [hc, ih]

/-- A line begins between two characters, behind some of the text. -/
theorem exists_of_mem_lineStarts {offset start : Nat} {text : List Char}
    (h : start ∈ lineStarts offset text) :
    ∃ front, front ≠ [] ∧ front <+: text ∧ start = offset + byteSize front := by
  induction text generalizing offset with
  | nil => cases h
  | cons c text ih =>
    have hrest : start ∈ lineStarts (offset + c.utf8Size) text →
        ∃ front, front ≠ [] ∧ front <+: c :: text ∧ start = offset + byteSize front := by
      intro h
      obtain ⟨front, -, hfront, rfl⟩ := ih h
      refine ⟨c :: front, List.cons_ne_nil _ _, List.cons_prefix_cons.mpr ⟨rfl, hfront⟩, ?_⟩
      rw [byteSize, Nat.add_assoc]
    rw [lineStarts] at h
    split at h
    · rcases List.mem_cons.mp h with rfl | h
      · exact ⟨[c], List.cons_ne_nil _ _, ⟨text, rfl⟩, by simp [byteSize]⟩
      · exact hrest h
    · exact hrest h

theorem lt_of_mem_lineStarts {offset start : Nat} {cs : List Char}
    (h : start ∈ lineStarts offset cs) : offset < start ∧ start ≤ offset + byteSize cs := by
  obtain ⟨front, hfront, hprefix, rfl⟩ := exists_of_mem_lineStarts h
  have hpos := byteSize_pos hfront
  have hle := byteSize_le_byteSize hprefix
  omega

/-! ## Positions -/

/-- A text is its full lines and the rest of a line. -/
theorem exists_lastLine (cs : List Char) :
    ∃ front line, cs = front ++ line ∧ (front = [] ∨ ∃ lines, front = lines ++ ['\n']) ∧
      '\n' ∉ line := by
  induction cs using List.reverseRecOn with
  | nil => exact ⟨[], [], rfl, .inl rfl, by simp⟩
  | append_singleton cs c ih =>
    by_cases hc : c = '\n'
    · exact ⟨cs ++ [c], [], by simp, .inr ⟨cs, by rw [hc]⟩, by simp⟩
    · obtain ⟨front, line, rfl, hfront, hline⟩ := ih
      refine ⟨front, line ++ [c], by simp, hfront, ?_⟩
      simp [hline, Ne.symm hc]

namespace LineIndex

/-- The line feeds before an offset are those of the longest beginning that fits. -/
theorem lineOf_takeBytes (text : List Char) (offset : Nat) :
    (ofText text).lineOf offset = (takeBytes offset text).count '\n' := by
  have hsplit := takeBytes_append_dropBytes offset text
  have hfits := byteSize_takeBytes_le offset text
  have hbefore : (lineStarts 0 (takeBytes offset text)).countP (decide <| · ≤ offset) =
      (takeBytes offset text).count '\n' := by
    rw [← length_lineStarts 0, List.countP_eq_length]
    intro start hstart
    have hstart := lt_of_mem_lineStarts hstart
    rw [decide_eq_true_eq]
    omega
  -- A line that begins behind the offset of a longer beginning does not fit.
  have hbehind : (lineStarts (byteSize (takeBytes offset text)) (dropBytes offset text)).countP
      (decide <| · ≤ offset) = 0 := by
    rw [List.countP_eq_zero]
    intro start hstart hle
    rw [decide_eq_true_eq] at hle
    obtain ⟨more, hmore, hprefix, rfl⟩ := exists_of_mem_lineStarts hstart
    have hlonger : takeBytes offset text ++ more <+: text := by
      conv_rhs => rw [← hsplit]
      exact (List.prefix_append_right_inj _).mpr hprefix
    rw [← byteSize_append] at hle
    have hgreatest := byteSize_le_byteSize (isPrefix_takeBytes hlonger hle)
    have hpos := byteSize_pos hmore
    rw [byteSize_append] at hgreatest
    omega
  have hstarts := lineStarts_append 0 (takeBytes offset text) (dropBytes offset text)
  rw [hsplit, Nat.zero_add] at hstarts
  rw [lineOf, ofText, hstarts, List.countP_cons, List.countP_append, hbefore, hbehind]
  simp

theorem lineOf_byteSize (xs ys : List Char) :
    (ofText (xs ++ ys)).lineOf (byteSize xs) = xs.count '\n' := by
  rw [lineOf_takeBytes, takeBytes_byteSize]

/-- The line that begins behind some full lines. -/
theorem getD_starts_front {front : List Char}
    (hfront : front = [] ∨ ∃ lines, front = lines ++ ['\n']) (rest : List Char) :
    (ofText (front ++ rest)).starts.getD (front.count '\n') 0 = byteSize front := by
  rcases hfront with rfl | ⟨lines, rfl⟩
  · rfl
  · have hstarts : (ofText (lines ++ ['\n'] ++ rest)).starts =
        (0 :: lineStarts 0 lines) ++ byteSize (lines ++ ['\n']) ::
          lineStarts (byteSize (lines ++ ['\n'])) rest := by
      simp [ofText, lineStarts_append, lineStarts, byteSize]
    have hlength : (lines ++ ['\n']).count '\n' = (0 :: lineStarts 0 lines).length := by
      simp [length_lineStarts]
    rw [hstarts, hlength, List.getD_append_right _ _ _ _ (Nat.le_refl _), Nat.sub_self]
    rfl

/-- **Counting.** The longest beginning of the text that fits in front of an offset is some full
lines and the rest of a line, and these give the position. -/
theorem counts_of_takeBytes {text front line : List Char} {offset : Nat}
    (htake : takeBytes offset text = front ++ line)
    (hfront : front = [] ∨ ∃ lines, front = lines ++ ['\n']) (hline : '\n' ∉ line) :
    (ofText text).counts offset = (front.count '\n', units line) := by
  have hsplit := takeBytes_append_dropBytes offset text
  rw [htake, List.append_assoc] at hsplit
  have hfits : byteSize front ≤ offset := by
    have hle := byteSize_takeBytes_le offset text
    rw [htake, byteSize_append] at hle
    omega
  have hlast : takeBytes (offset - byteSize front) (line ++ dropBytes offset text) = line := by
    have happend := takeBytes_append hfits (line ++ dropBytes offset text)
    rw [hsplit, htake] at happend
    exact (List.append_cancel_left happend).symm
  have hcount : (takeBytes offset text).count '\n' = front.count '\n' := by
    rw [htake, List.count_append, List.count_eq_zero.mpr hline, Nat.add_zero]
  have hstart : (ofText text).starts.getD (front.count '\n') 0 = byteSize front := by
    rw [← hsplit]
    exact getD_starts_front hfront _
  have hdrop : dropBytes (byteSize front) (ofText text).text = line ++ dropBytes offset text := by
    show dropBytes (byteSize front) text = _
    conv_lhs => rw [← hsplit]
    exact dropBytes_byteSize front _
  rw [counts, lineOf_takeBytes, hcount, hstart]
  show (_, units (takeBytes _ (dropBytes (byteSize front) (ofText text).text))) = _
  rw [hdrop, hlast]

/-- The column behind a part of a line. -/
theorem counts_lastLine {front line : List Char}
    (hfront : front = [] ∨ ∃ lines, front = lines ++ ['\n']) (hline : '\n' ∉ line)
    (rest : List Char) :
    (ofText (front ++ line ++ rest)).counts (byteSize (front ++ line)) =
      (front.count '\n', units line) :=
  counts_of_takeBytes (takeBytes_byteSize (front ++ line) rest) hfront hline

theorem counts_fst (xs ys : List Char) :
    ((ofText (xs ++ ys)).counts (byteSize xs)).1 = xs.count '\n' := lineOf_byteSize xs ys

/-- Along a line the column grows with the units. -/
theorem counts_snd_append (xs : List Char) {ys : List Char} (hys : '\n' ∉ ys) (zs : List Char) :
    ((ofText (xs ++ ys ++ zs)).counts (byteSize (xs ++ ys))).2 =
      ((ofText (xs ++ ys ++ zs)).counts (byteSize xs)).2 + units ys := by
  obtain ⟨front, line, rfl, hfront, hline⟩ := exists_lastLine xs
  have hmore : '\n' ∉ line ++ ys := by simp [hline, hys]
  have h₁ := counts_lastLine hfront hmore zs
  have h₂ := counts_lastLine hfront hline (ys ++ zs)
  simp only [List.append_assoc] at h₁ h₂ ⊢
  rw [h₁, h₂, units_append]

end LineIndex

/-! ## Numbers of 32 bits -/

theorem length_le_byteSize (cs : List Char) : cs.length ≤ byteSize cs := by
  induction cs with
  | nil => exact Nat.le_refl 0
  | cons c cs ih =>
    have hpos := c.utf8Size_pos
    rw [List.length_cons, byteSize]
    omega

theorem unitSize_le_utf8Size (c : Char) : unitSize c ≤ c.utf8Size := by
  have hpos := c.utf8Size_pos
  unfold unitSize
  split
  · next hc =>
    -- A character of one byte is far from the second unit.
    have hone : c.utf8Size ≠ 1 := by
      intro heq
      rw [Char.utf8Size_eq_one_iff, UInt32.le_iff_toNat_le] at heq
      change c.toNat ≤ 127 at heq
      omega
    omega
  · exact hpos

theorem units_le_byteSize (cs : List Char) : units cs ≤ byteSize cs := by
  induction cs with
  | nil => exact Nat.le_refl 0
  | cons c cs ih =>
    rw [units, byteSize]
    exact Nat.add_le_add (unitSize_le_utf8Size c) ih

namespace LineIndex

/-- Neither number is larger than the text. -/
theorem counts_le (text : List Char) (offset : Nat) :
    ((ofText text).counts offset).1 ≤ byteSize text ∧
      ((ofText text).counts offset).2 ≤ byteSize text := by
  obtain ⟨front, line, htake, hfront, hline⟩ := exists_lastLine (takeBytes offset text)
  have hsize := byteSize_le_byteSize (takeBytes_isPrefix offset text)
  have hcount : front.count '\n' ≤ front.length := List.count_le_length
  have hlength := length_le_byteSize front
  have hunits := units_le_byteSize line
  rw [htake, byteSize_append] at hsize
  rw [counts_of_takeBytes htake hfront hline]
  exact ⟨by omega, by omega⟩

end LineIndex

/-- The two numbers of a position. -/
def toNats (position : UInt32 × UInt32) : Nat × Nat := (position.1.toNat, position.2.toNat)

theorem LineIndex.toNat_position_fst (i : LineIndex) (offset : Nat) :
    (i.position offset).1.toNat = (i.counts offset).1 % UInt32.size := UInt32.toNat_ofNat'

/-- A position in a text of few bytes has all of its numbers. -/
theorem LineIndex.toNats_position {text : List Char} (hsize : byteSize text < UInt32.size)
    (offset : Nat) :
    toNats ((ofText text).position offset) = (ofText text).counts offset := by
  obtain ⟨hlines, hcolumns⟩ := counts_le text offset
  apply Prod.ext
  · exact UInt32.toNat_ofNat_of_lt (Nat.lt_of_le_of_lt hlines hsize)
  · exact UInt32.toNat_ofNat_of_lt (Nat.lt_of_le_of_lt hcolumns hsize)

/-- The order of positions in a text. -/
def Before (a b : Nat × Nat) : Prop := a.1 < b.1 ∨ a.1 = b.1 ∧ a.2 < b.2

/-- Positions come in the order of the text. -/
theorem LineIndex.counts_before {text xs ys : List Char} (hxs : xs <+: text) (hys : ys <+: text)
    (h : byteSize xs < byteSize ys) :
    Before ((ofText text).counts (byteSize xs)) ((ofText text).counts (byteSize ys)) := by
  obtain ⟨mid, rfl⟩ : xs <+: ys := by
    rcases List.prefix_or_prefix_of_prefix hxs hys with hprefix | ⟨rest, rfl⟩
    · exact hprefix
    · rw [byteSize_append] at h
      omega
  obtain ⟨rest, rfl⟩ := hys
  have hmid : mid ≠ [] := by
    rintro rfl
    simp at h
  have hline : ((ofText (xs ++ mid ++ rest)).counts (byteSize xs)).1 = xs.count '\n' := by
    rw [List.append_assoc]
    exact counts_fst xs _
  have hline' := counts_fst (xs ++ mid) rest
  rw [List.count_append] at hline'
  by_cases hfeed : '\n' ∈ mid
  · have hpos := List.count_pos_iff.mpr hfeed
    exact .inl (by omega)
  · have hcount := List.count_eq_zero.mpr hfeed
    have hcolumn := counts_snd_append xs hfeed rest
    have hpos := units_pos hmid
    exact .inr ⟨by omega, by omega⟩

theorem LineIndex.position_before {text xs ys : List Char} (hsize : byteSize text < UInt32.size)
    (hxs : xs <+: text) (hys : ys <+: text) (h : byteSize xs < byteSize ys) :
    Before (toNats ((ofText text).position (byteSize xs)))
      (toNats ((ofText text).position (byteSize ys))) := by
  rw [toNats_position hsize, toNats_position hsize]
  exact counts_before hxs hys h

end BehaviorIndex.Text
