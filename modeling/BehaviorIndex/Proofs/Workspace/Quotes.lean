import BehaviorIndex.Proofs.Markup.Columns
import BehaviorIndex.Proofs.Markup.Name
import BehaviorIndex.Proofs.Text.Search
import BehaviorIndex.Workspace.Query
import Mathlib.Algebra.Group.Nat.Even
import Mathlib.Data.List.TakeWhile

/-!
# Quotes under the cursor

The quotes of a line pair off from left to right. So a quote opens a word exactly if an even number
of quotes stands before it.

**Theorem (`quoted_underCursor`).** A cursor behind the opening quote of a word, up to one place
behind its closing quote, finds this word: as the word in quotes, as the reference, if the line
holds an attribute that refers, and as the name whose definitions are looked up. And a word that is
found is such a word, with the cursor from its opening quote on, up to the same place.

Behind a part of the line with an even number of quotes, the pairing starts afresh
(`quotedWords_append`). So the pairs on the left of a word end before it, and do not touch a cursor
behind its opening quote.
-/

namespace BehaviorIndex.Markup

open Text

/-! ## Pairs of quotes -/

section

variable {front word rest line : List Char} {c : Char} {offset : Nat}

theorem byteSize_quote (cs : List Char) : byteSize ('"' :: cs) = byteSize cs + 1 :=
  Nat.add_comm _ _

theorem stops_quote (rest : List Char) : Stops (· != '"') ('"' :: rest) := stops_cons (by decide)

theorem ne_quote_of_notMem (h : '"' ∉ front) : ∀ c ∈ front, (c != '"') = true := by
  intro c hc
  rw [bne_iff_ne]
  rintro rfl
  exact h hc

theorem notMem_takeWhile_quote (line : List Char) : '"' ∉ line.takeWhile (· != '"') := by
  intro h
  simpa using of_mem_takeWhile h

theorem dropWhile_quote_eq_nil_iff : line.dropWhile (· != '"') = [] ↔ '"' ∉ line := by
  rw [List.dropWhile_eq_nil_iff]
  constructor
  · intro h hmem
    simpa using h '"' hmem
  · exact ne_quote_of_notMem

/-- A line with a quote, cut at the first one. -/
theorem eq_append_quote (h : line.dropWhile (· != '"') = c :: rest) :
    line = line.takeWhile (· != '"') ++ '"' :: rest := by
  have hc : (c != '"') = false := by
    have hstops : Stops (· != '"') (c :: rest) := h ▸ stops_dropWhile
    exact hstops c rfl
  obtain rfl : c = '"' := by simpa using hc
  rw [← h, List.takeWhile_append_dropWhile]

/-- A pair of quotes, and what comes behind it. -/
theorem quotedWords_pair (offset : Nat) (hfront : '"' ∉ front) (hword : '"' ∉ word)
    (rest : List Char) :
    quotedWords offset (front ++ '"' :: (word ++ '"' :: rest)) =
      ⟨offset + byteSize front, word⟩ ::
        quotedWords (offset + byteSize front + byteSize word + 2) rest := by
  have hfront := ne_quote_of_notMem hfront
  have hword := ne_quote_of_notMem hword
  have hopen := dropWhile_append_of_stops hfront (stops_quote (word ++ '"' :: rest))
  have hclose := dropWhile_append_of_stops hword (stops_quote rest)
  rw [quotedWords]
  split
  · next hnil =>
    rw [hopen] at hnil
    cases hnil
  · next c behind hbehind =>
    rw [hopen] at hbehind
    cases hbehind
    split
    · next hnil =>
      rw [hclose] at hnil
      cases hnil
    · next d after hafter =>
      rw [hclose] at hafter
      cases hafter
      simp only [takeWhile_append_of_stops hfront (stops_quote _),
        takeWhile_append_of_stops hword (stops_quote rest), QuotedWord.stop]
      congr 2
      omega

theorem quotedWords_of_notMem (offset : Nat) (h : '"' ∉ line) : quotedWords offset line = [] := by
  rw [quotedWords]
  split
  · rfl
  · next hcons =>
    rw [dropWhile_quote_eq_nil_iff.mpr h] at hcons
    cases hcons

/-- A single quote opens nothing. -/
theorem quotedWords_single (offset : Nat) (hfront : '"' ∉ front) (hrest : '"' ∉ rest) :
    quotedWords offset (front ++ '"' :: rest) = [] := by
  have hopen := dropWhile_append_of_stops (ne_quote_of_notMem hfront) (stops_quote rest)
  rw [quotedWords]
  split
  · rfl
  · next c behind hbehind =>
    rw [hopen] at hbehind
    cases hbehind
    split
    · rfl
    · next hcons =>
      rw [dropWhile_quote_eq_nil_iff.mpr hrest] at hcons
      cases hcons

/-- A line without quotes, a line with a single quote, and a pair before a line. -/
theorem quotes_induction {motive : List Char → Prop} (none : ∀ line, '"' ∉ line → motive line)
    (single : ∀ front rest, '"' ∉ front → '"' ∉ rest → motive (front ++ '"' :: rest))
    (pair : ∀ front word rest, '"' ∉ front → '"' ∉ word → motive rest →
      motive (front ++ '"' :: (word ++ '"' :: rest)))
    (line : List Char) : motive line := by
  induction 0, line using quotedWords.induct with
  | case1 offset line hdrop => exact none line (dropWhile_quote_eq_nil_iff.mp hdrop)
  | case2 offset line c rest hopen hdrop =>
    rw [eq_append_quote hopen]
    exact single _ rest (notMem_takeWhile_quote line) (dropWhile_quote_eq_nil_iff.mp hdrop)
  | case3 offset line c rest hopen d after hclose q ih =>
    rw [eq_append_quote hopen, eq_append_quote hclose]
    exact pair _ _ after (notMem_takeWhile_quote line) (notMem_takeWhile_quote rest) ih

theorem quotedWords_append_of_notMem (offset : Nat) (hfront : '"' ∉ front) (rest : List Char) :
    quotedWords offset (front ++ rest) = quotedWords (offset + byteSize front) rest := by
  cases rest using quotes_induction with
  | none rest hrest =>
    rw [quotedWords_of_notMem _ (by simp [hfront, hrest]), quotedWords_of_notMem _ hrest]
  | single more rest hmore hrest =>
    rw [← List.append_assoc, quotedWords_single _ (by simp [hfront, hmore]) hrest,
      quotedWords_single _ hmore hrest]
  | pair more word rest hmore hword _ =>
    rw [← List.append_assoc, quotedWords_pair _ (by simp [hfront, hmore]) hword,
      quotedWords_pair _ hmore hword, byteSize_append]
    simp only [Nat.add_assoc]

/-- **Pairing.** Behind an even number of quotes, the quotes pair off on their own. -/
theorem quotedWords_append (offset : Nat) (heven : Even (front.count '"')) (rest : List Char) :
    quotedWords offset (front ++ rest) =
      quotedWords offset front ++ quotedWords (offset + byteSize front) rest := by
  induction front using quotes_induction generalizing offset with
  | none front hfront =>
    rw [quotedWords_of_notMem offset hfront, quotedWords_append_of_notMem offset hfront,
      List.nil_append]
  | single front more hfront hmore =>
    simp [List.count_eq_zero.mpr hfront, List.count_eq_zero.mpr hmore] at heven
  | pair front word more hfront hword ih =>
    have hmore : Even (more.count '"') := by
      simpa [List.count_eq_zero.mpr hfront, List.count_eq_zero.mpr hword, Nat.even_add] using heven
    have hsize : byteSize (front ++ '"' :: (word ++ '"' :: more)) =
        byteSize front + byteSize word + 2 + byteSize more := by
      simp only [byteSize_append, byteSize_quote]
      omega
    rw [List.append_assoc, List.cons_append, List.append_assoc, List.cons_append,
      quotedWords_pair offset hfront hword, quotedWords_pair offset hfront hword, ih _ hmore,
      hsize, List.cons_append]
    congr 3
    omega

/-- A pair of quotes stands behind an even number of quotes. -/
theorem exists_of_mem_quotedWords {q : QuotedWord} (h : q ∈ quotedWords offset line) :
    ∃ front rest, line = front ++ '"' :: (q.word ++ '"' :: rest) ∧ Even (front.count '"') ∧
      '"' ∉ q.word ∧ q.start = offset + byteSize front := by
  induction line using quotes_induction generalizing offset with
  | none line hline =>
    rw [quotedWords_of_notMem offset hline] at h
    cases h
  | single front rest hfront hrest =>
    rw [quotedWords_single offset hfront hrest] at h
    cases h
  | pair front word rest hfront hword ih =>
    rw [quotedWords_pair offset hfront hword] at h
    have hcount := List.count_eq_zero.mpr hfront
    rcases List.mem_cons.mp h with rfl | h
    · exact ⟨front, rest, rfl, by simp [hcount], hword, rfl⟩
    · obtain ⟨more, behind, rfl, heven, hq, hstart⟩ := ih h
      refine ⟨front ++ '"' :: (word ++ '"' :: more), behind, by simp, ?_, hq, ?_⟩
      · simpa [hcount, List.count_eq_zero.mpr hword, Nat.even_add] using heven
      · simp only [byteSize_append, byteSize_quote, hstart]
        omega

end

/-! ## The word at a column -/

/-- A word in quotes, behind an even number of quotes. -/
structure Quoted (line front word rest : List Char) : Prop where
  line_eq : line = front ++ '"' :: (word ++ '"' :: rest)
  even : Even (front.count '"')
  ne_nil : word ≠ []
  noQuote : '"' ∉ word

section

variable {line : String} {column : Nat}

theorem touches_iff {cursor : Nat} {q : QuotedWord} :
    q.touches cursor = true ↔ q.start ≤ cursor ∧ cursor ≤ q.stop + 1 := by
  simp [QuotedWord.touches]

/-- The pairs before a word end before it. -/
theorem not_touches_of_lt {front : List Char} {cursor : Nat} (h : byteSize front < cursor)
    {q : QuotedWord} (hq : q ∈ quotedWords 0 front) : q.touches cursor = false := by
  obtain ⟨before, behind, rfl, -, -, hstart⟩ := exists_of_mem_quotedWords hq
  simp only [byteSize_append, byteSize_quote] at h
  rw [← Bool.not_eq_true, touches_iff, QuotedWord.stop]
  omega

theorem quotedWordAt?_of_quoted {front word rest : List Char}
    (h : Quoted line.toList front word rest)
    (hlow : byteSize front < byteOffset column line.toList)
    (hhigh : byteOffset column line.toList ≤ byteSize front + byteSize word + 2) :
    quotedWordAt? column line = some (String.ofList word) := by
  have hwords : quotedWords 0 line.toList = quotedWords 0 front ++ ⟨byteSize front, word⟩ ::
      quotedWords (byteSize front + byteSize word + 2) rest := by
    have hpair := quotedWords_pair (byteSize front) List.not_mem_nil h.noQuote rest
    rw [h.line_eq, quotedWords_append 0 h.even, Nat.zero_add]
    exact congrArg _ hpair
  have htouches : QuotedWord.touches (byteOffset column line.toList) ⟨byteSize front, word⟩ =
      true := by
    rw [touches_iff]
    show byteSize front ≤ _ ∧ _ ≤ byteSize front + 1 + byteSize word + 1
    omega
  have hleft : (quotedWords 0 front).find? (fun q => !q.word.isEmpty &&
      q.touches (byteOffset column line.toList)) = none := by
    rw [List.find?_eq_none]
    intro q hq
    simp [not_touches_of_lt hlow hq]
  simp only [quotedWordAt?, hwords, List.find?_append, hleft, Option.none_or]
  rw [List.find?_cons_of_pos (by simp [h.ne_nil, htouches])]
  rfl

/-- A word that is found stands in quotes, and the cursor touches it. -/
theorem exists_quoted_of_quotedWordAt? {word : String} (h : quotedWordAt? column line = some word) :
    ∃ front rest, Quoted line.toList front word.toList rest ∧
      byteSize front ≤ byteOffset column line.toList ∧
      byteOffset column line.toList ≤ byteSize front + byteSize word.toList + 2 := by
  obtain ⟨q, hfind, rfl⟩ := Option.map_eq_some_iff.mp h
  obtain ⟨front, rest, hline, heven, hword, hstart⟩ :=
    exists_of_mem_quotedWords (List.mem_of_find?_eq_some hfind)
  have htouches := List.find?_some hfind
  rw [Bool.and_eq_true, touches_iff, QuotedWord.stop] at htouches
  obtain ⟨hne, hlow, hhigh⟩ := htouches
  rw [String.toList_ofList]
  exact ⟨front, rest, ⟨hline, heven, by simpa using hne, hword⟩, by omega, by omega⟩

end

end BehaviorIndex.Markup

namespace BehaviorIndex

open Text
open BehaviorIndex.Markup (Quoted ReferenceAttributes byteOffset quotedWordAt?)

/-- The line holds the name of an attribute that refers to entities, with its equals sign. -/
def Markup.ReferenceAttributes.Mentions (r : ReferenceAttributes) (line : String) : Prop :=
  ∃ name ∈ r.idAttribute :: r.references, name.toList ++ ['='] <:+: line.toList

theorem Markup.ReferenceAttributes.any_contains_iff (r : ReferenceAttributes) (line : String) :
    r.keys.any (contains · line.toList) = true ↔ r.Mentions line := by
  simp only [keys, List.any_map, List.any_eq_true, Function.comp_apply, contains_iff, Mentions]

namespace Workspace

/-- What a cursor on a word in quotes finds. -/
structure Finds (w : Workspace) (r : ReferenceAttributes) (line : String) (column : Nat)
    (word : String) : Prop where
  quoted : quotedWordAt? column line = some word
  reference : r.Mentions line → r.referenceAt? column line = some word
  noReference : ¬ r.Mentions line → r.referenceAt? column line = none
  definitions : w.definitionsAt line column = w.definitions .tree word

theorem finds_of_quotedWordAt? (w : Workspace) (r : ReferenceAttributes) {line word : String}
    {column : Nat} (h : quotedWordAt? column line = some word) : w.Finds r line column word where
  quoted := h
  reference hmentions := by
    rw [ReferenceAttributes.referenceAt?, if_pos (r.any_contains_iff line |>.mpr hmentions), h]
  noReference hmentions := by
    rw [ReferenceAttributes.referenceAt?, if_neg (mt (r.any_contains_iff line).mp hmentions)]
  definitions := by rw [definitionsAt, h]

/-- **Quotes.** A cursor behind the opening quote of a word finds the word, up to one place behind
its closing quote. A word that is found stands in quotes, and the cursor is there or on the opening
quote. -/
theorem quoted_underCursor (w : Workspace) (r : ReferenceAttributes) (line : String)
    (column : Nat) :
    (∀ front word rest : List Char, Quoted line.toList front word rest →
      byteSize front < byteOffset column line.toList →
      byteOffset column line.toList ≤ byteSize front + byteSize word + 2 →
      w.Finds r line column (String.ofList word)) ∧
    ∀ word : String, quotedWordAt? column line = some word →
      ∃ front rest, Quoted line.toList front word.toList rest ∧
        byteSize front ≤ byteOffset column line.toList ∧
        byteOffset column line.toList ≤ byteSize front + byteSize word.toList + 2 := by
  refine ⟨fun front word rest hquoted hlow hhigh => ?_, fun word hword => ?_⟩
  · exact w.finds_of_quotedWordAt? r (Markup.quotedWordAt?_of_quoted hquoted hlow hhigh)
  · exact Markup.exists_quoted_of_quotedWordAt? hword

/-- An empty pair of quotes stands before the word, and another pair begins where the cursor is. -/
theorem quoted_underCursor_chord :
    let w : Workspace := { settings := .defaults 1, root := "/" }
    let line := "é\"\"ID=\"𝄞x\"\"y\""
    Quoted line.toList "é\"\"ID=".toList "𝄞x".toList "\"y\"".toList ∧
      byteOffset 11 line.toList = 14 ∧ w.Finds w.settings.references line 11 "𝄞x" ∧
      w.settings.references.referenceAt? 11 line = some "𝄞x" := by
  intro w line
  have hquoted : Quoted line.toList "é\"\"ID=".toList "𝄞x".toList "\"y\"".toList :=
    ⟨by decide, by decide, by decide, by decide⟩
  have hfinds : w.Finds w.settings.references line 11 "𝄞x" :=
    (w.quoted_underCursor _ line 11).1 _ _ _ hquoted (by decide) (by decide)
  refine ⟨hquoted, by decide, hfinds, hfinds.reference ⟨"ID", by decide, ?_⟩⟩
  exact contains_iff.mp (by decide)

end Workspace

end BehaviorIndex
