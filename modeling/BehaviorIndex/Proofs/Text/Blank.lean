import BehaviorIndex.Proofs.Markup.Name
import BehaviorIndex.Text.Blank
import Mathlib.Data.List.TakeWhile

/-!
# What trimming keeps

Trimming takes blanks away at both ends and nothing else. So it keeps every occurrence of a pattern
without blanks (`infix_trim_iff`), and it changes nothing in a text that neither begins nor ends
with a blank (`trim_eq_self`).
-/

namespace BehaviorIndex.Text

open Markup (Stops)

variable {pat cs : List Char}

theorem trimStart_eq_self (h : Stops isBlank cs) : trimStart cs = cs := by
  cases cs with
  | nil => rfl
  | cons c cs => exact List.dropWhile_cons_of_neg (by simp [h c rfl])

theorem trimEnd_eq_self (h : Stops isBlank cs.reverse) : trimEnd cs = cs := by
  have hstart : cs.reverse.dropWhile isBlank = cs.reverse := trimStart_eq_self h
  rw [trimEnd, hstart, List.reverse_reverse]

theorem trim_eq_self (hhead : Stops isBlank cs) (hlast : Stops isBlank cs.reverse) :
    trim cs = cs := by
  rw [trim, trimStart_eq_self hhead, trimEnd_eq_self hlast]

/-- A text is its trimmed form and blanks. -/
theorem exists_trimEnd (cs : List Char) :
    ∃ blanks, cs = trimEnd cs ++ blanks ∧ ∀ c ∈ blanks, isBlank c = true := by
  refine ⟨(cs.reverse.takeWhile isBlank).reverse, ?_, ?_⟩
  · rw [trimEnd, ← List.reverse_append, List.takeWhile_append_dropWhile, List.reverse_reverse]
  · intro c hc
    exact Markup.of_mem_takeWhile (List.mem_reverse.mp hc)

theorem trimEnd_append {xs blanks : List Char} (h : ∀ c ∈ blanks, isBlank c) :
    trimEnd (xs ++ blanks) = trimEnd xs := by
  rw [trimEnd, List.reverse_append, List.dropWhile_append_of_pos (by simpa using h), trimEnd]

/-- Trimming stops at the last character that is no blank. -/
theorem trimEnd_concat_append {c : Char} {blanks : List Char} (xs : List Char)
    (hc : isBlank c = false) (h : ∀ c ∈ blanks, isBlank c) :
    trimEnd (xs ++ [c] ++ blanks) = xs ++ [c] := by
  rw [trimEnd_append h]
  refine trimEnd_eq_self ?_
  rw [List.reverse_concat]
  exact Markup.stops_cons hc

theorem trim_append {xs blanks : List Char} (h : ∀ c ∈ blanks, isBlank c) :
    trim (xs ++ blanks) = trim xs := by
  rw [trim, trim, trimStart, trimStart, List.dropWhile_append]
  split
  · next hempty =>
    have hxs : xs.dropWhile isBlank = [] := List.isEmpty_iff.mp hempty
    rw [hxs, List.dropWhile_eq_nil_iff.mpr h]
  · exact trimEnd_append h

theorem infix_trimStart (hne : pat ≠ []) (hpat : ∀ c ∈ pat, isBlank c = false) (h : pat <:+: cs) :
    pat <:+: trimStart cs := by
  induction cs with
  | nil => exact h
  | cons c cs ih =>
    by_cases hc : isBlank c = true
    · rw [trimStart, List.dropWhile_cons_of_pos hc]
      rcases List.infix_cons_iff.mp h with hprefix | hrest
      · -- The pattern would begin with the blank.
        obtain ⟨d, ds, rfl⟩ := List.exists_cons_of_ne_nil hne
        obtain ⟨rfl, -⟩ := List.cons_prefix_cons.mp hprefix
        simp [hpat d List.mem_cons_self] at hc
      · exact ih hrest
    · rwa [trimStart, List.dropWhile_cons_of_neg hc]

theorem infix_trimEnd (hne : pat ≠ []) (hpat : ∀ c ∈ pat, isBlank c = false) (h : pat <:+: cs) :
    pat <:+: trimEnd cs := by
  have hreverse : pat.reverse <:+: trimStart cs.reverse := by
    refine infix_trimStart (by simpa using hne) ?_ (List.reverse_infix.mpr h)
    intro c hc
    exact hpat c (List.mem_reverse.mp hc)
  rw [trimEnd, ← List.reverse_infix, List.reverse_reverse]
  exact hreverse

theorem trimEnd_isPrefix (cs : List Char) : trimEnd cs <+: cs := by
  rw [trimEnd, ← List.reverse_suffix, List.reverse_reverse]
  exact List.dropWhile_suffix isBlank

theorem trim_isInfix (cs : List Char) : trim cs <:+: cs := by
  have hstart : trimStart cs <:+ cs := List.dropWhile_suffix isBlank
  exact (trimEnd_isPrefix (trimStart cs)).isInfix.trans hstart.isInfix

/-- A pattern without blanks occurs in a text exactly if it occurs in the trimmed text. -/
theorem infix_trim_iff (hne : pat ≠ []) (hpat : ∀ c ∈ pat, isBlank c = false) :
    pat <:+: trim cs ↔ pat <:+: cs := by
  constructor
  · intro h
    exact h.trans (trim_isInfix cs)
  · intro h
    exact infix_trimEnd hne hpat (infix_trimStart hne hpat h)

end BehaviorIndex.Text
