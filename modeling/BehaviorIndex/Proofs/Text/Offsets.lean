import BehaviorIndex.Proofs.Markup.Columns
import BehaviorIndex.Proofs.Text.Search
import Mathlib.Order.Bounds.Defs

/-!
# The offsets of a pattern

A pattern stands in a text at the byte offset of what is before it. `breakOn` finds the least of
these offsets, and behind a beginning of the text the least that is not before its end.
-/

namespace BehaviorIndex.Text

/-- The offsets from `start` on at which the pattern stands in the text. -/
def offsetsFrom (pat text : List Char) (start : Nat) : Set Nat :=
  {offset | start ≤ offset ∧ ∃ front rest,
    text = front ++ rest ∧ pat <+: rest ∧ byteSize front = offset}

section

variable {pat text front rest before behind : List Char} {start offset : Nat}

theorem mem_offsetsFrom (h : pat <+: rest) (hstart : start ≤ byteSize front) :
    byteSize front ∈ offsetsFrom pat (front ++ rest) start :=
  ⟨hstart, front, rest, rfl, h, rfl⟩

/-- From the end of a beginning of the text on, the pattern stands behind that beginning. -/
theorem exists_of_mem_offsetsFrom
    (h : offset ∈ offsetsFrom pat (front ++ rest) (byteSize front)) :
    ∃ before behind, rest = before ++ behind ∧ pat <+: behind ∧
      offset = byteSize front + byteSize before := by
  obtain ⟨hle, all, behind, hsplit, hpat, rfl⟩ := h
  obtain ⟨before, rfl⟩ : front <+: all :=
    prefix_of_byteSize_le (List.prefix_append front rest) ⟨behind, hsplit.symm⟩ hle
  rw [List.append_assoc, List.append_cancel_left_eq] at hsplit
  exact ⟨before, behind, hsplit, hpat, byteSize_append front before⟩

theorem isLeast_of_breakOn (h : breakOn pat rest = some (before, behind)) (front : List Char) :
    IsLeast (offsetsFrom pat (front ++ rest) (byteSize front))
      (byteSize front + byteSize before) := by
  constructor
  · have hmem : byteSize (front ++ before) ∈
        offsetsFrom pat ((front ++ before) ++ behind) (byteSize front) :=
      mem_offsetsFrom (List.isPrefixOf_iff_prefix.mp (isPrefixOf_of_breakOn h)) (by simp)
    rwa [List.append_assoc, ← breakOn_eq_append h, byteSize_append] at hmem
  · intro offset hoffset
    obtain ⟨before', behind', hrest, hpat, rfl⟩ := exists_of_mem_offsetsFrom hoffset
    have := byteSize_le_byteSize (isPrefix_of_breakOn h hrest hpat)
    omega

theorem offsetsFrom_eq_empty (h : breakOn pat rest = none) (front : List Char) :
    offsetsFrom pat (front ++ rest) (byteSize front) = ∅ := by
  refine Set.eq_empty_iff_forall_notMem.mpr fun offset hoffset => ?_
  obtain ⟨before, behind, rfl, hpat, -⟩ := exists_of_mem_offsetsFrom hoffset
  exact breakOn_eq_none_iff.mp h (hpat.isInfix.trans (List.suffix_append before behind).isInfix)

/-- The pattern that stands at an offset ends within the text. -/
theorem add_byteSize_le_of_mem_offsetsFrom (h : offset ∈ offsetsFrom pat text start) :
    offset + byteSize pat ≤ byteSize text := by
  obtain ⟨-, front, rest, rfl, hpat, rfl⟩ := h
  have := byteSize_le_byteSize hpat
  rw [byteSize_append]
  omega

end

end BehaviorIndex.Text
