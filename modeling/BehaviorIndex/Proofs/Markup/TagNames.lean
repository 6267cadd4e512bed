import BehaviorIndex.Proofs.Markup.Columns
import BehaviorIndex.Proofs.Text.Blank

/-!
# The tag name under the cursor

A tag name is found by growing a word from the cursor to both sides.

**Theorem (`tagAt?_names`).** What is found does not depend on where the cursor stands in the word.
It is the longest run of word characters that the cursor touches, if it begins as an identifier and
comes behind `<` or `</`. So every column that touches a run gives the same answer, and every column
from the first character of a tag name to the place behind its last one gives the name.

A cursor touches one run (`exists_isRun`), perhaps an empty one, and cuts it in two
(`IsRun.exists_cut`). What is grown to the left and to the right are the two parts.
-/

namespace BehaviorIndex.Markup

open Text

/-! ## Runs -/

/-- A longest run of word characters on a line. -/
structure IsRun (line before word after : List Char) : Prop where
  line_eq : line = before ++ word ++ after
  chars : ∀ c ∈ word, isIdentifierChar c = true
  left : ∀ c ∈ before.getLast?, isIdentifierChar c = false
  right : ∀ c ∈ after.head?, isIdentifierChar c = false

/-- A place on the line is in a part of it, or at one of its ends. -/
def Touches (cursor : Nat) (before word : List Char) : Prop :=
  byteSize before ≤ cursor ∧ cursor ≤ byteSize before + byteSize word

section

variable {line left right before word after : List Char}

/-- A place that touches a run cuts it in two. -/
theorem IsRun.exists_cut (h : IsRun (left ++ right) before word after)
    (htouches : Touches (byteSize left) before word) :
    ∃ front back, word = front ++ back ∧ left = before ++ front ∧ right = back ++ after := by
  have hline := h.line_eq
  have hleft : left <+: before ++ word ++ after := ⟨right, hline⟩
  have hbefore : before <+: before ++ word ++ after := by simp
  have hword : before ++ word <+: before ++ word ++ after := List.prefix_append _ _
  obtain ⟨front, rfl⟩ := prefix_of_byteSize_le hbefore hleft htouches.1
  obtain ⟨back, hback⟩ : before ++ front <+: before ++ word := by
    refine prefix_of_byteSize_le hleft hword ?_
    rw [byteSize_append before word]
    exact htouches.2
  rw [List.append_assoc, List.append_cancel_left_eq] at hback
  refine ⟨front, back, hback.symm, rfl, ?_⟩
  simpa [← hback] using hline

/-- Every place touches a run, which may be empty. -/
theorem exists_isRun (left right : List Char) :
    ∃ before word after, IsRun (left ++ right) before word after ∧
      Touches (byteSize left) before word := by
  have hleft : (left.reverse.dropWhile isIdentifierChar).reverse ++
      (left.reverse.takeWhile isIdentifierChar).reverse = left := by
    rw [← List.reverse_append, List.takeWhile_append_dropWhile, List.reverse_reverse]
  have hright := List.takeWhile_append_dropWhile (p := isIdentifierChar) (l := right)
  refine ⟨(left.reverse.dropWhile isIdentifierChar).reverse,
    (left.reverse.takeWhile isIdentifierChar).reverse ++ right.takeWhile isIdentifierChar,
    right.dropWhile isIdentifierChar, ⟨?_, ?_, ?_, stops_dropWhile⟩, ?_⟩
  · rw [← List.append_assoc, hleft, List.append_assoc, hright]
  · intro c hc
    rcases List.mem_append.mp hc with hc | hc
    · exact of_mem_takeWhile (List.mem_reverse.mp hc)
    · exact of_mem_takeWhile hc
  · rw [List.getLast?_reverse]
    exact stops_dropWhile
  · have hsize := congrArg byteSize hleft
    rw [byteSize_append] at hsize
    rw [Touches, byteSize_append]
    omega

end

/-- The columns from the beginning of a part of a line to its end touch the part. -/
theorem touches_of_units {before word : List Char} {column : Nat} (after : List Char)
    (hlow : units before ≤ column) (hhigh : column ≤ units (before ++ word)) :
    Touches (byteOffset column (before ++ word ++ after)) before word := by
  have hcolumn : column ≤ units (before ++ word ++ after) := by
    rw [units_append (before ++ word)]
    omega
  have hreached := le_units_splitColumn hcolumn
  have hbefore : before <+: (splitColumn column (before ++ word ++ after)).1 := by
    have hline : before <+: before ++ word ++ after := by simp
    have hcursor := splitColumn_prefix column (before ++ word ++ after)
    rcases List.prefix_or_prefix_of_prefix hcursor hline with hshort | hlong
    · -- The cursor stands no further left than the part begins, so there is nothing between.
      obtain ⟨gap, hgap⟩ := hshort
      by_cases hnil : gap = []
      · rw [hnil, List.append_nil] at hgap
        exact ⟨[], by rw [List.append_nil, hgap]⟩
      · have hpos := units_pos hnil
        have hunits := congrArg units hgap
        rw [units_append] at hunits
        omega
    · exact hlong
  have hword := byteSize_le_byteSize (splitColumn_prefix_of_le (List.prefix_append _ after) hhigh)
  rw [byteSize_append] at hword
  exact ⟨byteSize_le_byteSize hbefore, hword⟩

/-! ## Names of tags -/

/-- The text ends with `<` or `</`, and blanks behind it. -/
def EndsInBracket (before : List Char) : Prop :=
  ∃ front slash blanks, before = front ++ '<' :: (slash ++ blanks) ∧
    (slash = [] ∨ slash = ['/']) ∧ ∀ c ∈ blanks, isBlank c = true

theorem opensTag_iff (before : List Char) : opensTag before = true ↔ EndsInBracket before := by
  constructor
  · intro h
    obtain ⟨blanks, hbefore, hblanks⟩ := exists_trimEnd before
    rw [opensTag] at h
    split at h
    · next rest hrest =>
      rw [List.reverse_eq_iff] at hrest
      exact ⟨rest.reverse, ['/'], blanks, by rw [hbefore, hrest]; simp, .inr rfl, hblanks⟩
    · next rest hrest =>
      rw [List.reverse_eq_iff] at hrest
      exact ⟨rest.reverse, [], blanks, by rw [hbefore, hrest]; simp, .inl rfl, hblanks⟩
    · cases h
  · rintro ⟨front, slash, blanks, rfl, hslash, hblanks⟩
    rw [opensTag, List.append_cons, ← List.append_assoc]
    rcases hslash with rfl | rfl
    · rw [List.append_nil, trimEnd_concat_append front (by decide) hblanks, List.reverse_concat]
      rfl
    · rw [trimEnd_concat_append (front ++ ['<']) (by decide) hblanks, List.reverse_concat,
        List.reverse_concat]
      rfl

/-- **Growing.** The word that is grown from a cursor is the run that it touches. -/
theorem tagAt?_of_isRun {line : String} {column : Nat} {before word after : List Char}
    (h : IsRun line.toList before word after)
    (htouches : Touches (byteOffset column line.toList) before word) :
    tagAt? column line =
      if word.head?.any isIdentifierStart && opensTag before then some (String.ofList word)
      else none := by
  have hcut := splitColumn_append column line.toList
  rw [byteOffset] at htouches
  rw [tagAt?]
  cases hsplit : splitColumn column line.toList with
  | mk left right =>
    rw [hsplit] at hcut htouches
    rw [← hcut] at h
    obtain ⟨front, back, rfl, rfl, rfl⟩ := h.exists_cut htouches
    have hfront : ∀ c ∈ front.reverse, isIdentifierChar c = true := by
      intro c hc
      exact h.chars c (List.mem_append_left _ (List.mem_reverse.mp hc))
    have hback : ∀ c ∈ back, isIdentifierChar c = true := by
      intro c hc
      exact h.chars c (List.mem_append_right _ hc)
    have hleft : Stops isIdentifierChar before.reverse := by
      rw [Stops, List.head?_reverse]
      exact h.left
    simp only [List.reverse_append, takeWhile_append_of_stops hfront hleft,
      dropWhile_append_of_stops hfront hleft, takeWhile_append_of_stops hback h.right,
      List.reverse_reverse]

/-- A word that begins as an identifier. -/
def BeginsIdentifier (word : List Char) : Prop := ∃ c ∈ word.head?, isIdentifierStart c = true

theorem tagAt?_eq_some_iff {line name : String} {column : Nat} :
    tagAt? column line = some name ↔ ∃ before after, IsRun line.toList before name.toList after ∧
      Touches (byteOffset column line.toList) before name.toList ∧
      BeginsIdentifier name.toList ∧ EndsInBracket before := by
  constructor
  · intro h
    obtain ⟨before, word, after, hrun, htouches⟩ :=
      exists_isRun (splitColumn column line.toList).1 (splitColumn column line.toList).2
    rw [splitColumn_append] at hrun
    rw [tagAt?_of_isRun hrun htouches] at h
    split at h
    · next hname =>
      rw [Bool.and_eq_true, Option.any_eq_true, opensTag_iff] at hname
      cases h
      rw [String.toList_ofList]
      exact ⟨before, after, hrun, htouches, hname⟩
    · cases h
  · rintro ⟨before, after, hrun, htouches, hbegins, hbracket⟩
    have hname : (name.toList.head?.any isIdentifierStart && opensTag before) = true := by
      rw [Bool.and_eq_true, Option.any_eq_true, opensTag_iff]
      exact ⟨hbegins, hbracket⟩
    rw [tagAt?_of_isRun hrun htouches, if_pos hname, String.ofList_toList]

/-- What the columns of a line give. -/
structure NamesTags (line : String) : Prop where
  /-- A name is the run at the column, behind a bracket. -/
  name : ∀ (column : Nat) (name : String), tagAt? column line = some name ↔
    ∃ before after, IsRun line.toList before name.toList after ∧
      Touches (byteOffset column line.toList) before name.toList ∧
      BeginsIdentifier name.toList ∧ EndsInBracket before
  /-- The columns at one run give the same. -/
  same : ∀ before word after : List Char, IsRun line.toList before word after →
    ∀ column other : Nat, Touches (byteOffset column line.toList) before word →
      Touches (byteOffset other line.toList) before word → tagAt? column line = tagAt? other line
  /-- The columns at an identifier directly behind a bracket give the identifier. -/
  tag : ∀ front slash word rest : List Char,
    line.toList = front ++ '<' :: slash ++ word ++ rest → slash = [] ∨ slash = ['/'] →
    BeginsIdentifier word → (∀ c ∈ word, isIdentifierChar c = true) →
    (∀ c ∈ rest.head?, isIdentifierChar c = false) →
    ∀ column : Nat, units (front ++ '<' :: slash) ≤ column →
      column ≤ units (front ++ '<' :: slash ++ word) →
      tagAt? column line = some (String.ofList word)

/-- **Tag names.** The cursor finds the run that it touches, if this can be the name of a tag. -/
theorem tagAt?_names (line : String) : NamesTags line where
  name column name := tagAt?_eq_some_iff
  same before word after hrun column other hcolumn hother := by
    rw [tagAt?_of_isRun hrun hcolumn, tagAt?_of_isRun hrun hother]
  tag front slash word rest hline hslash hbegins hchars hrest column hlow hhigh := by
    have hrun : IsRun line.toList (front ++ '<' :: slash) word rest := by
      refine ⟨hline, hchars, ?_, hrest⟩
      intro c hc
      rcases hslash with rfl | rfl
      · obtain rfl : '<' = c := by simpa using hc
        decide
      · obtain rfl : '/' = c := by simpa using hc
        decide
    have htouches := hline ▸ touches_of_units rest hlow hhigh
    have hbracket : EndsInBracket (front ++ '<' :: slash) :=
      ⟨front, slash, [], by simp, hslash, by simp⟩
    refine tagAt?_eq_some_iff.mpr ⟨front ++ '<' :: slash, rest, ?_⟩
    rw [String.toList_ofList]
    exact ⟨hrun, htouches, hbegins, hbracket⟩

/-- The closing tag of a line with characters of several bytes and units, from the place before the
name to the place behind it. -/
theorem tagAt?_names_close :
    let line := "𝄞<é/></Fallback_2>"
    (∀ column, 8 ≤ column → column ≤ 18 → tagAt? column line = some "Fallback_2") ∧
      tagAt? 7 line = none ∧ tagAt? 4 line = none := by
  intro line
  refine ⟨fun column hlow hhigh => ?_, by decide, by decide⟩
  exact (tagAt?_names line).tag "𝄞<é/>".toList ['/'] "Fallback_2".toList ['>'] (by decide)
    (.inr rfl) ⟨'F', by decide, by decide⟩ (List.all_eq_true.mp (by decide))
    (fun c hc => by cases hc; decide) column hlow hhigh

end BehaviorIndex.Markup
