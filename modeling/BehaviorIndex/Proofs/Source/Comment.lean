import BehaviorIndex.Proofs.Text.Blank
import BehaviorIndex.Proofs.Text.Search
import BehaviorIndex.Source.Comment
import Mathlib.Order.Bounds.Defs

/-!
# Which lines are the comment

The comment above a declaration is looked for from the declaration upward. Told by the numbers of
the lines, it is a range of them.

**Theorem (`commentAbove_range`).** Let `j` be the first line behind the last one before the
declaration that is not blank (`EndsAt`). If there is such a line, the comment is the trimmed lines
from `i` to `j - 1`, in their order, where `i` is told by the last of them (`BeginsAt`):

* a line that closes a block, and opens one at its start or not at all, ends a comment that begins
  at the last line that opens a block, or else at the very first line;
* a line that closes a block that it opens behind something else ends no comment, so `i = j`;
* any other line ends the longest run of lines that begin with `//` or `*`.

Without a line that is not blank there is no comment.

A list that is read upward is `upward f j`, the values of `f` below `j` in falling order, and each
of the three loops of the search stops at a place told by `f`: `dropWhile_upward`,
`takeThrough_upward`, `takeWhile_upward`.
-/

namespace BehaviorIndex.Source

open Text

/-! ## The range -/

/-- Opens a block. -/
def opening : List Char := ['/', '*']

/-- Closes a block. -/
def closing : List Char := ['*', '/']

/-- The line of a number, trimmed; empty if there is no such line. -/
def lineAt (lines : List (List Char)) (k : Nat) : List Char := trim (lines.getD k [])

/-- Before the declaration, line `j - 1` is the last line that is not blank. -/
structure EndsAt (lines : List (List Char)) (declaration j : Nat) : Prop where
  pos : 0 < j
  le : j ≤ min declaration lines.length
  nearest : lineAt lines (j - 1) ≠ []
  blank : ∀ k, j ≤ k → k < min declaration lines.length → lineAt lines k = []

/-- The comment that ends before line `j` begins at line `i`. -/
structure BeginsAt (lines : List (List Char)) (j i : Nat) : Prop where
  block : closing <:+ lineAt lines (j - 1) →
    (opening <:+: lineAt lines (j - 1) → opening <+: lineAt lines (j - 1)) →
      IsGreatest {k | k < j ∧ opening <:+: lines.getD k []} i ∨
        (∀ k < j, ¬ opening <:+: lines.getD k []) ∧ i = 0
  trailing : closing <:+ lineAt lines (j - 1) → opening <:+: lineAt lines (j - 1) →
    ¬ opening <+: lineAt lines (j - 1) → i = j
  run : ¬ closing <:+ lineAt lines (j - 1) →
    IsLeast {k | k ≤ j ∧ ∀ m, k ≤ m → m < j →
      ['/', '/'] <+: lineAt lines m ∨ ['*'] <+: lineAt lines m} i

/-! ## What a line looks like -/

section

variable {line : List Char}

theorem closesBlock_iff : closesBlock line = true ↔ closing <:+ line :=
  List.isSuffixOf_iff_suffix

theorem opensBlock_iff : opensBlock line = true ↔ opening <:+: line := contains_iff

theorem isLineComment_iff :
    isLineComment line = true ↔ ['/', '/'] <+: line ∨ ['*'] <+: line := by
  rw [isLineComment, Bool.or_eq_true, List.isPrefixOf_iff_prefix, List.isPrefixOf_iff_prefix]

/-- The first opening stands behind something exactly if there is one, but not at the start. -/
theorem opensBlockLate_iff :
    opensBlockLate line = true ↔ opening <:+: line ∧ ¬ opening <+: line := by
  rw [opensBlockLate]
  change ((breakOn opening line).any _) = true ↔ _
  cases hbreak : breakOn opening line with
  | none => simp [breakOn_eq_none_iff.mp hbreak]
  | some split =>
    obtain ⟨before, rest⟩ := split
    have hline := breakOn_eq_append hbreak
    have hrest := List.isPrefixOf_iff_prefix.mp (isPrefixOf_of_breakOn hbreak)
    have hwithin : opening <:+: line := hline ▸ hrest.isInfix.trans (List.suffix_append _ _).isInfix
    constructor
    · intro hlate
      refine ⟨hwithin, fun hstart => ?_⟩
      have hbefore : before <+: [] := isPrefix_of_breakOn hbreak (List.nil_append line).symm hstart
      rw [List.prefix_nil.mp hbefore] at hlate
      cases hlate
    · rintro ⟨-, hstart⟩
      cases before with
      | nil => exact absurd (hline ▸ hrest) hstart
      | cons c before => rfl

end

/-! ## Going upward -/

section

variable {α : Type}

/-- The values of `f` from `j - 1` down to zero. -/
def upward (f : Nat → α) : Nat → List α
  | 0 => []
  | j + 1 => f j :: upward f j

theorem length_upward (f : Nat → α) (j : Nat) : (upward f j).length = j := by
  induction j with
  | zero => rfl
  | succ j ih => rw [upward, List.length_cons, ih]

/-- Going upward past values that satisfy `p`, one comes to the last value that does not. -/
theorem dropWhile_upward (p : α → Bool) (f : Nat → α) (n : Nat) :
    ((∀ k < n, p (f k) = true) ∧ (upward f n).dropWhile p = []) ∨
      ∃ j < n, p (f j) = false ∧ (∀ k, j < k → k < n → p (f k) = true) ∧
        (upward f n).dropWhile p = upward f (j + 1) := by
  induction n with
  | zero => exact .inl ⟨fun k hk => absurd hk (Nat.not_lt_zero k), rfl⟩
  | succ n ih =>
    by_cases hn : p (f n) = true
    · rw [upward, List.dropWhile_cons_of_pos hn]
      rcases ih with ⟨hall, hdrop⟩ | ⟨j, hj, hfalse, hall, hdrop⟩
      · refine .inl ⟨fun k hk => ?_, hdrop⟩
        rcases Nat.lt_succ_iff_lt_or_eq.mp hk with hk | rfl
        · exact hall k hk
        · exact hn
      · refine .inr ⟨j, Nat.lt_succ_of_lt hj, hfalse, fun k hjk hk => ?_, hdrop⟩
        rcases Nat.lt_succ_iff_lt_or_eq.mp hk with hk | rfl
        · exact hall k hjk hk
        · exact hn
    · refine .inr ⟨n, Nat.lt_succ_self n, by simpa using hn, fun k hnk hk => ?_, ?_⟩
      · omega
      · rw [upward, List.dropWhile_cons_of_neg hn]

/-- Going upward through the first value that satisfies `p`, one stops at the greatest number of
such a value, or at zero. -/
theorem takeThrough_upward (p : α → Bool) (f : Nat → α) (j : Nat) :
    ∃ i ≤ j, takeThrough p (upward f j) = (upward f j).take (j - i) ∧
      (IsGreatest {k | k < j ∧ p (f k) = true} i ∨ (∀ k < j, ¬ p (f k) = true) ∧ i = 0) := by
  induction j with
  | zero => exact ⟨0, Nat.le_refl 0, rfl, .inr ⟨fun k hk => absurd hk (Nat.not_lt_zero k), rfl⟩⟩
  | succ j ih =>
    rw [upward, takeThrough]
    by_cases hj : p (f j) = true
    · refine ⟨j, Nat.le_succ j, ?_, .inl ⟨⟨Nat.lt_succ_self j, hj⟩, ?_⟩⟩
      · rw [if_pos hj, Nat.add_sub_cancel_left]
        rfl
      · rintro k ⟨hk, -⟩
        exact Nat.le_of_lt_succ hk
    · obtain ⟨i, hi, htake, hstop⟩ := ih
      have hlast : ∀ k < j + 1, p (f k) = true → k < j := by
        intro k hk hpk
        rcases Nat.lt_succ_iff_lt_or_eq.mp hk with hk | rfl
        · exact hk
        · exact absurd hpk hj
      refine ⟨i, Nat.le_succ_of_le hi, ?_, ?_⟩
      · rw [if_neg hj, htake, Nat.succ_sub hi, List.take_succ_cons]
      · rcases hstop with ⟨⟨hij, hpi⟩, hmax⟩ | ⟨hnone, rfl⟩
        · refine .inl ⟨⟨Nat.lt_succ_of_lt hij, hpi⟩, ?_⟩
          rintro k ⟨hk, hpk⟩
          exact hmax ⟨hlast k hk hpk, hpk⟩
        · exact .inr ⟨fun k hk hpk => hnone k (hlast k hk hpk) hpk, rfl⟩

/-- Going upward through values that satisfy `p`, one stops at the least number from which on all
do. -/
theorem takeWhile_upward (p : α → Bool) (f : Nat → α) (j : Nat) :
    ∃ i ≤ j, (upward f j).takeWhile p = (upward f j).take (j - i) ∧
      IsLeast {k | k ≤ j ∧ ∀ m, k ≤ m → m < j → p (f m) = true} i := by
  induction j with
  | zero =>
    refine ⟨0, Nat.le_refl 0, rfl, ⟨Nat.le_refl 0, fun m _ hm => absurd hm (Nat.not_lt_zero m)⟩, ?_⟩
    exact fun k _ => Nat.zero_le k
  | succ j ih =>
    rw [upward]
    by_cases hj : p (f j) = true
    · obtain ⟨i, hi, htake, ⟨-, hall⟩, hmin⟩ := ih
      refine ⟨i, Nat.le_succ_of_le hi, ?_, ⟨Nat.le_succ_of_le hi, fun m him hm => ?_⟩, ?_⟩
      · rw [List.takeWhile_cons_of_pos hj, htake, Nat.succ_sub hi, List.take_succ_cons]
      · rcases Nat.lt_succ_iff_lt_or_eq.mp hm with hm | rfl
        · exact hall m him hm
        · exact hj
      · rintro k ⟨hk, hkall⟩
        by_cases hkj : k ≤ j
        · exact hmin ⟨hkj, fun m hkm hm => hkall m hkm (Nat.lt_succ_of_lt hm)⟩
        · omega
    · refine ⟨j + 1, Nat.le_refl _, ?_, ⟨Nat.le_refl _, fun m hjm hm => ?_⟩, ?_⟩
      · rw [List.takeWhile_cons_of_neg hj, Nat.sub_self, List.take_zero]
      · omega
      · rintro k ⟨hk, hkall⟩
        by_cases hkj : k ≤ j
        · exact absurd (hkall j hkj (Nat.lt_succ_self j)) hj
        · omega

end

/-! ## The comment -/

section

variable {lines : List (List Char)}

theorem reverse_upward_lineAt {j : Nat} (hj : j ≤ lines.length) :
    (upward (lineAt lines) j).reverse = (lines.take j).map trim := by
  induction j with
  | zero => simp [upward]
  | succ j ih =>
    have hget : lineAt lines j = trim lines[j] := by
      rw [lineAt, List.getD_eq_getElem?_getD, List.getElem?_eq_getElem hj, Option.getD_some]
    rw [upward, List.reverse_cons, ih (Nat.le_of_succ_le hj), hget,
      List.take_succ_eq_append_getElem hj, List.map_append]
    rfl

/-- The lines that are met first, put in their order. -/
theorem reverse_take_upward {i j : Nat} (hi : i ≤ j) (hj : j ≤ lines.length) :
    ((upward (lineAt lines) j).take (j - i)).reverse = ((lines.take j).drop i).map trim := by
  rw [List.reverse_take, length_upward, Nat.sub_sub_self hi, reverse_upward_lineAt hj,
    List.map_drop]

theorem opensBlock_lineAt (k : Nat) :
    opensBlock (lineAt lines k) = true ↔ opening <:+: lines.getD k [] := by
  have hblank : ∀ c ∈ opening, isBlank c = false :=
    List.forall_mem_cons.mpr ⟨by decide, List.forall_mem_singleton.mpr (by decide)⟩
  rw [opensBlock_iff, lineAt, infix_trim_iff (show opening ≠ [] by decide) hblank]

/-- The lines that are met from a line on that is not blank. -/
theorem commentUpward_range (lines : List (List Char)) (j : Nat) :
    ∃ i ≤ j + 1, BeginsAt lines (j + 1) i ∧
      commentUpward (upward (lineAt lines) (j + 1)) =
        (upward (lineAt lines) (j + 1)).take (j + 1 - i) := by
  have hcomment : commentUpward (upward (lineAt lines) (j + 1)) =
      if closesBlock (lineAt lines j) then
        if opensBlockLate (lineAt lines j) then []
        else takeThrough opensBlock (upward (lineAt lines) (j + 1))
      else (upward (lineAt lines) (j + 1)).takeWhile isLineComment := rfl
  rw [hcomment]
  by_cases hclosing : closesBlock (lineAt lines j) = true
  · rw [if_pos hclosing]
    by_cases hlate : opensBlockLate (lineAt lines j) = true
    · -- The block trails something.
      have hopening := opensBlockLate_iff.mp hlate
      refine ⟨j + 1, Nat.le_refl _, ⟨?_, fun _ _ _ => rfl, ?_⟩, ?_⟩
      · intro _ hstart
        exact absurd (hstart hopening.1) hopening.2
      · intro hopen
        exact absurd (closesBlock_iff.mp hclosing) hopen
      · rw [if_pos hlate, Nat.sub_self, List.take_zero]
    · obtain ⟨i, hi, htake, hstop⟩ := takeThrough_upward opensBlock (lineAt lines) (j + 1)
      simp only [opensBlock_lineAt] at hstop
      refine ⟨i, hi, ⟨fun _ _ => hstop, ?_, ?_⟩, ?_⟩
      · intro _ hopening hstart
        exact absurd (opensBlockLate_iff.mpr ⟨hopening, hstart⟩) hlate
      · intro hopen
        exact absurd (closesBlock_iff.mp hclosing) hopen
      · rw [if_neg hlate, htake]
  · obtain ⟨i, hi, htake, hstop⟩ := takeWhile_upward isLineComment (lineAt lines) (j + 1)
    simp only [isLineComment_iff] at hstop
    refine ⟨i, hi, ⟨?_, ?_, fun _ => hstop⟩, ?_⟩
    · intro hclose
      exact absurd (closesBlock_iff.mpr hclose) hclosing
    · intro hclose
      exact absurd (closesBlock_iff.mpr hclose) hclosing
    · rw [if_neg hclosing, htake]

end

/-- **The comment is a range.** -/
theorem commentAbove_range (lines : List (List Char)) (declaration : Nat) :
    ((∀ k < min declaration lines.length, lineAt lines k = []) ∧
        commentAbove lines declaration = []) ∨
      ∃ j i, EndsAt lines declaration j ∧ BeginsAt lines j i ∧ i ≤ j ∧
        commentAbove lines declaration = ((lines.take j).drop i).map trim := by
  have hupward : ((lines.take declaration).map trim).reverse =
      upward (lineAt lines) (min declaration lines.length) := by
    rw [List.take_eq_take_min, ← reverse_upward_lineAt (Nat.min_le_right _ _), List.reverse_reverse]
  rw [commentAbove, hupward]
  rcases dropWhile_upward List.isEmpty (lineAt lines) (min declaration lines.length) with
    ⟨hall, hdrop⟩ | ⟨j, hj, hnearest, hblank, hdrop⟩
  · refine .inl ⟨fun k hk => List.isEmpty_iff.mp (hall k hk), ?_⟩
    simp only [hdrop]
    rfl
  · have hlength : j + 1 ≤ lines.length := Nat.le_trans hj (Nat.min_le_right _ _)
    obtain ⟨i, hi, hbegins, hcomment⟩ := commentUpward_range lines j
    refine .inr ⟨j + 1, i, ⟨Nat.succ_pos j, hj, ?_, fun k hjk hk => ?_⟩, hbegins, hi, ?_⟩
    · rw [Nat.add_sub_cancel]
      intro hempty
      simp [hempty] at hnearest
    · exact List.isEmpty_iff.mp (hblank k hjk hk)
    · simp only [hdrop, hcomment]
      exact reverse_take_upward hi hlength

end BehaviorIndex.Source
