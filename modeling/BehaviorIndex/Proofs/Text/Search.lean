import BehaviorIndex.Text.Search

/-!
# What a search finds

`breakOn` splits a text at the first occurrence of a pattern: no occurrence begins further left
(`isPrefix_of_breakOn`), and there is no split exactly if there is no occurrence
(`breakOn_eq_none_iff`). `afterPrefix?` is what a pattern leaves of a text that begins with it.
-/

namespace BehaviorIndex.Text

variable {pat cs before rest : List Char}

theorem afterPrefix?_eq_some_iff : afterPrefix? pat cs = some rest ↔ cs = pat ++ rest := by
  unfold afterPrefix?
  split
  · next h =>
    obtain ⟨tail, rfl⟩ := List.isPrefixOf_iff_prefix.mp h
    simp
  · next h =>
    constructor
    · intro hnone
      cases hnone
    · rintro rfl
      exact absurd (List.isPrefixOf_iff_prefix.mpr ⟨rest, rfl⟩) h

theorem afterPrefix?_eq_none (h : ¬ pat <+: cs) : afterPrefix? pat cs = none :=
  if_neg fun hprefix => h (List.isPrefixOf_iff_prefix.mp hprefix)

/-- No occurrence begins left of the split. -/
theorem isPrefix_of_breakOn (h : breakOn pat cs = some (before, rest)) {front more : List Char}
    (hcs : cs = front ++ more) (hmore : pat <+: more) : before <+: front := by
  induction cs generalizing before front with
  | nil =>
    rw [breakOn] at h
    split at h
    · cases h
      exact List.nil_prefix
    · cases h
  | cons c cs ih =>
    rw [breakOn] at h
    split at h
    · cases h
      exact List.nil_prefix
    · next hc =>
      obtain ⟨⟨before, rest⟩, hbreak, h⟩ := Option.map_eq_some_iff.mp h
      cases h
      cases front with
      | nil =>
        rw [hcs] at hc
        exact absurd (List.isPrefixOf_iff_prefix.mpr hmore) hc
      | cons d front =>
        obtain ⟨rfl, htail⟩ := List.cons.inj hcs
        exact List.cons_prefix_cons.mpr ⟨rfl, ih hbreak htail⟩

theorem breakOn_eq_none_iff : breakOn pat cs = none ↔ ¬ pat <:+: cs := by
  induction cs with
  | nil => cases pat <;> simp [breakOn]
  | cons c cs ih =>
    rw [breakOn, List.infix_cons_iff, ← List.isPrefixOf_iff_prefix]
    by_cases hc : pat.isPrefixOf (c :: cs) <;> simp [hc, ih]

theorem contains_iff : contains pat cs = true ↔ pat <:+: cs := by
  rw [contains, Option.isSome_iff_ne_none, ne_eq, breakOn_eq_none_iff, Classical.not_not]

end BehaviorIndex.Text
