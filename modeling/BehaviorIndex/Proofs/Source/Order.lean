import BehaviorIndex.Proofs.Text.Lines
import BehaviorIndex.Proofs.Text.Search
import BehaviorIndex.Source.Definition

/-!
# The order of definitions

A scan goes through a text from left to right. What it has found ends where it goes on
(`suffix_of_match?`), so the definitions begin before characters of the text, each behind the one
before (`pairwise_scanFrom`), and their positions are in the order of the text
(`pairwise_before_scan`).
-/

namespace BehaviorIndex.Source

open Text

/-! ## What follows a definition -/

theorem suffix_of_afterBlanks? {k : List Char → Option (List Char × List Char)}
    (hk : ∀ cs name rest, k cs = some (name, rest) → rest <:+ cs) {cs name rest : List Char}
    (h : afterBlanks? k cs = some (name, rest)) : rest <:+ cs := by
  induction cs with
  | nil => cases h
  | cons c cs ih =>
    rw [afterBlanks?] at h
    split at h
    · rcases Option.or_eq_some_iff.mp h with h | ⟨-, h⟩
      · exact (ih h).trans (List.suffix_cons c cs)
      · exact (hk cs name rest h).trans (List.suffix_cons c cs)
    · cases h

theorem suffix_of_quotedName? {cs name rest : List Char} (h : quotedName? cs = some (name, rest)) :
    rest <:+ cs := by
  match cs with
  | [] => cases h
  | q :: cs =>
    rw [quotedName?] at h
    have hdrop := List.dropWhile_suffix (l := cs) (!isQuote ·)
    split at h
    · split at h
      · cases h
      · next hd _ =>
        cases h
        rw [hd] at hdrop
        exact ((List.suffix_cons _ _).trans hdrop).trans (List.suffix_cons q cs)
      · cases h
    · cases h

theorem suffix_of_identifier? {cs name rest : List Char}
    (h : identifier? cs = some (name, rest)) : rest <:+ cs := by
  match cs with
  | [] => cases h
  | c :: cs =>
    rw [identifier?] at h
    split at h
    · cases h
      exact (List.dropWhile_suffix isWord).trans (List.suffix_cons c cs)
    · cases h

theorem suffix_of_afterPrefix? {pat cs rest : List Char} (h : afterPrefix? pat cs = some rest) :
    rest <:+ cs := by
  rw [afterPrefix?_eq_some_iff] at h
  exact ⟨pat, h.symm⟩

namespace Patterns

variable {p : Patterns} {kind : Kind} {before : Option Char} {cs name rest : List Char}

theorem suffix_of_match? (h : p.match? kind before cs = some (name, rest)) : rest <:+ cs := by
  cases kind with
  | tree =>
    simp only [match?, Option.bind_eq_some_iff] at h
    obtain ⟨behind, hbehind, h⟩ := h
    refine (suffix_of_afterBlanks? (fun cs name rest hk => ?_) h).trans
      (suffix_of_afterPrefix? hbehind)
    obtain ⟨value, hvalue, hk⟩ := Option.bind_eq_some_iff.mp hk
    exact (suffix_of_quotedName? hk).trans (suffix_of_afterPrefix? hvalue)
  | node =>
    simp only [match?] at h
    split at h
    · obtain ⟨behind, hbehind, h⟩ := Option.bind_eq_some_iff.mp h
      exact (suffix_of_afterBlanks? (fun _ _ _ => suffix_of_identifier?) h).trans
        (suffix_of_afterPrefix? hbehind)
    · cases h

/-- The definition and what follows it. -/
theorem take_append_of_match? (h : p.match? kind before cs = some (name, rest)) :
    cs.take (cs.length - rest.length) ++ rest = cs ∧
      cs.take (cs.length - rest.length) ≠ [] := by
  obtain ⟨matched, rfl⟩ := suffix_of_match? h
  have hlength := length_of_match? h
  rw [List.length_append] at hlength ⊢
  rw [Nat.add_sub_cancel, List.take_left]
  refine ⟨rfl, ?_⟩
  rintro rfl
  simp at hlength

/-! ## The scan -/

theorem scanFrom_of_match? {offset : Nat} {c : Char} {behind : List Char}
    (h : p.match? kind before (c :: (behind ++ rest)) = some (name, rest)) :
    p.scanFrom kind before offset (c :: (behind ++ rest)) = (String.ofList name, offset) ::
      p.scanFrom kind (c :: behind).getLast? (offset + byteSize (c :: behind)) rest := by
  have htake : (c :: (behind ++ rest)).take ((c :: (behind ++ rest)).length - rest.length) =
      c :: behind := by
    rw [← List.cons_append, List.length_append, Nat.add_sub_cancel, List.take_left]
  rw [scanFrom]
  split
  · next name' rest' h' =>
    cases h.symm.trans h'
    rw [htake]
  · next h' =>
    rw [h] at h'
    cases h'

theorem scanFrom_of_match?_eq_none {offset : Nat} {c : Char}
    (h : p.match? kind before (c :: cs) = none) :
    p.scanFrom kind before offset (c :: cs) =
      p.scanFrom kind (some c) (offset + c.utf8Size) cs := by
  rw [scanFrom]
  split
  · next h' =>
    rw [h] at h'
    cases h'
  · rfl

/-! ## Offsets -/

/-- Definitions begin before a character of the text. -/
theorem exists_of_mem_scanFrom {offset : Nat} {found : String × Nat}
    (h : found ∈ p.scanFrom kind before offset cs) :
    ∃ front rest, front ++ rest = cs ∧ rest ≠ [] ∧ found.2 = offset + byteSize front := by
  fun_induction scanFrom p kind before offset cs with
  | case1 => cases h
  | case2 before offset c cs name rest hmatch matched ih =>
    rcases List.mem_cons.mp h with rfl | h
    · exact ⟨[], c :: cs, rfl, List.cons_ne_nil c cs, rfl⟩
    · obtain ⟨front, more, hrest, hmore, hfound⟩ := ih h
      refine ⟨matched ++ front, more, ?_, hmore, ?_⟩
      · rw [List.append_assoc, hrest]
        exact (take_append_of_match? hmatch).1
      · rw [hfound, byteSize_append, Nat.add_assoc]
  | case3 before offset c cs hmatch ih =>
    obtain ⟨front, more, hrest, hmore, hfound⟩ := ih h
    exact ⟨c :: front, more, by rw [List.cons_append, hrest], hmore,
      by rw [hfound, byteSize, Nat.add_assoc]⟩

/-- Each definition begins behind the one before. -/
theorem pairwise_scanFrom (p : Patterns) (kind : Kind) (before : Option Char) (offset : Nat)
    (cs : List Char) : (p.scanFrom kind before offset cs).Pairwise fun a b => a.2 < b.2 := by
  fun_induction scanFrom p kind before offset cs with
  | case1 => exact .nil
  | case2 before offset c cs name rest hmatch matched ih =>
    refine .cons (fun found hfound => ?_) ih
    obtain ⟨front, -, -, -, hfound⟩ := exists_of_mem_scanFrom hfound
    have hpos : 0 < byteSize matched := byteSize_pos (take_append_of_match? hmatch).2
    show offset < found.2
    rw [hfound]
    omega
  | case3 before offset c cs hmatch ih => exact ih

/-- The positions of definitions are in the order of the text. -/
theorem pairwise_before_scan (p : Patterns) (kind : Kind) {text : String}
    (hsize : byteSize text.toList < UInt32.size) :
    (p.scan kind text).Pairwise fun a b =>
      Before (toNats ((LineIndex.ofText text.toList).position a.2))
        (toNats ((LineIndex.ofText text.toList).position b.2)) := by
  refine (pairwise_scanFrom p kind none 0 text.toList).imp_of_mem fun ha hb hlt => ?_
  obtain ⟨front, rest, hfront, -, hoffset⟩ := exists_of_mem_scanFrom ha
  obtain ⟨front', rest', hfront', -, hoffset'⟩ := exists_of_mem_scanFrom hb
  rw [Nat.zero_add] at hoffset hoffset'
  rw [hoffset, hoffset'] at hlt ⊢
  exact LineIndex.position_before hsize ⟨rest, hfront⟩ ⟨rest', hfront'⟩ hlt

theorem file_of_mem_locate (p : Patterns) (file : FileId) (kind : Kind) (text : String) :
    ∀ pair ∈ p.locate file kind text, pair.2.file = file := by
  intro pair h
  obtain ⟨found, -, rfl⟩ := List.mem_map.mp h
  rfl

end Patterns

end BehaviorIndex.Source
