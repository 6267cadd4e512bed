import BehaviorIndex.Text.Measure

/-!
# Searching in text

The first occurrence of a pattern splits a text in two: what stands before it, and the rest, which
begins with the pattern. All searches of the library are read off that split.
-/

namespace BehaviorIndex.Text

/-- The text before the first occurrence of `pat`, and the text from that occurrence on. -/
def breakOn (pat : List Char) : List Char → Option (List Char × List Char)
  | [] => if pat.isEmpty then some ([], []) else none
  | c :: cs =>
    if pat.isPrefixOf (c :: cs) then some ([], c :: cs)
    else (breakOn pat cs).map fun (before, rest) => (c :: before, rest)

def contains (pat cs : List Char) : Bool := (breakOn pat cs).isSome

/-- The byte offset of the first occurrence. -/
def offsetOf? (pat cs : List Char) : Option Nat :=
  (breakOn pat cs).map fun (before, _) => byteSize before

/-- What follows the first occurrence of `pat`; nothing if there is none. -/
def skipPast (pat cs : List Char) : List Char :=
  match breakOn pat cs with
  | some (_, rest) => rest.drop pat.length
  | none => []

/-- What follows `pat` at the start of the text. -/
def afterPrefix? (pat cs : List Char) : Option (List Char) :=
  if pat.isPrefixOf cs then some (cs.drop pat.length) else none

def endsWith (pat cs : List Char) : Bool := pat.isSuffixOf cs

/-! ## Laws of the split -/

theorem breakOn_eq_append {pat cs before rest : List Char}
    (h : breakOn pat cs = some (before, rest)) : cs = before ++ rest := by
  induction cs generalizing before with
  | nil =>
    simp only [breakOn] at h
    split at h <;> simp_all
  | cons c cs ih =>
    simp only [breakOn] at h
    split at h
    · simp at h; simp [← h.1, ← h.2]
    · simp only [Option.map_eq_some_iff, Prod.exists, Prod.mk.injEq] at h
      obtain ⟨b, r, hb, rfl, rfl⟩ := h
      simp [← ih hb]

theorem length_rest_of_breakOn {pat cs before rest : List Char}
    (h : breakOn pat cs = some (before, rest)) : rest.length ≤ cs.length := by
  simp [breakOn_eq_append h]

theorem length_of_afterPrefix? {pat cs rest : List Char} (h : afterPrefix? pat cs = some rest) :
    cs.length = pat.length + rest.length := by
  unfold afterPrefix? at h
  split at h
  · next hp =>
    obtain ⟨t, rfl⟩ := List.isPrefixOf_iff_prefix.mp hp
    cases h
    simp
  · simp at h

theorem isPrefixOf_of_breakOn {pat cs before rest : List Char}
    (h : breakOn pat cs = some (before, rest)) : pat.isPrefixOf rest := by
  induction cs generalizing before with
  | nil =>
    simp only [breakOn] at h
    split at h <;> simp_all
  | cons c cs ih =>
    simp only [breakOn] at h
    split at h
    · next hp =>
      cases h
      exact hp
    · simp only [Option.map_eq_some_iff, Prod.exists, Prod.mk.injEq] at h
      obtain ⟨b, r, hb, -, rfl⟩ := h
      exact ih hb

theorem length_skipPast_lt {pat cs : List Char} (hp : pat ≠ []) (hc : cs ≠ []) :
    (skipPast pat cs).length < cs.length := by
  have hp := List.length_pos_iff.mpr hp
  have hc := List.length_pos_iff.mpr hc
  unfold skipPast
  split
  · next h =>
    have := length_rest_of_breakOn h
    have := (List.isPrefixOf_iff_prefix.mp (isPrefixOf_of_breakOn h)).length_le
    simp only [List.length_drop]
    omega
  · simpa using hc

end BehaviorIndex.Text
