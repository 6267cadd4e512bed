import BehaviorIndex.Markup.Tag
import BehaviorIndex.Proofs.Markup.Name

/-!
# The parts of tags

What a quoted text, an attribute or a start tag consists of once it has been read.
-/

namespace BehaviorIndex.Markup

section

variable {c : Char} {cs rest : List Char}

/-- The parts of a quoted text: its quote, the text, the same quote again. -/
theorem quoted?_eq_some {forbidden : Char → Bool} {raw : List Char}
    (h : quoted? forbidden cs = some (raw, rest)) :
    ∃ q, (q = '"' ∨ q = '\'') ∧ cs = q :: (raw ++ q :: rest) ∧ q ∉ raw ∧
      ∀ c ∈ raw, forbidden c = false := by
  cases cs with
  | nil => cases h
  | cons q cs =>
    rw [quoted?] at h
    split at h
    · next hq =>
      split at h
      · cases h
      · next d rest' hdrop =>
        simp only at h
        split at h
        · cases h
        · next hraw =>
          cases h
          have hsplit := List.takeWhile_append_dropWhile (p := (· != q)) (l := cs)
          have hstop : Stops (· != q) (d :: rest) := hdrop ▸ stops_dropWhile
          have hd : d = q := by simpa using hstop d rfl
          subst hd
          refine ⟨d, by simpa using hq, by rw [← hdrop, hsplit], ?_, ?_⟩
          · intro hmem
            simpa using of_mem_takeWhile hmem
          · intro c hc
            simp only [Bool.or_eq_true, Bool.not_eq_true', not_or, Bool.not_eq_true,
              List.any_eq_false] at hraw
            simpa using hraw.1 c hc
    · cases h

/-- The parts of an attribute: its name, an equals sign, its quoted value. -/
theorem attribute?_eq_some {a : String × String} (h : attribute? cs = some (a, rest)) :
    ∃ name behind value raw, name? cs = some (name, behind) ∧ skipSpace behind = '=' :: value ∧
      quoted? (· == '<') (skipSpace value) = some (raw, rest) ∧
      a = (String.ofList name, String.ofList (decode raw)) := by
  rw [attribute?] at h
  split at h
  · cases h
  · next name behind hname =>
    split at h
    · next value hvalue =>
      obtain ⟨⟨raw, rest'⟩, hraw, h⟩ := Option.map_eq_some_iff.mp h
      obtain ⟨rfl, rfl⟩ := Prod.mk.inj h
      exact ⟨name, behind, value, raw, hname, hvalue, hraw, rfl⟩
    · cases h

theorem attributes_of_space?_eq_none (h : space? cs = none) : attributes cs = ([], cs) := by
  rw [attributes]
  split
  · rfl
  · next r hr => simp [h] at hr

theorem attributes_of_attribute?_eq_none {r : List Char} (hs : space? cs = some r)
    (ha : attribute? r = none) : attributes cs = ([], cs) := by
  rw [attributes]
  split
  · rfl
  · next r' hr =>
    obtain rfl := Option.some_inj.mp (hs.symm.trans hr)
    split
    · rfl
    · next h => simp [ha] at h

theorem attributes_of_attribute? {r : List Char} {a : String × String}
    (hs : space? cs = some r) (ha : attribute? r = some (a, rest)) :
    attributes cs = (a :: (attributes rest).1, (attributes rest).2) := by
  rw [attributes]
  split
  · next hn => simp [hs] at hn
  · next r' hr =>
    obtain rfl := Option.some_inj.mp (hs.symm.trans hr)
    split
    · next hn => simp [ha] at hn
    · next a' rest' ha' =>
      obtain ⟨rfl, rfl⟩ := Prod.mk.inj (Option.some_inj.mp (ha.symm.trans ha'))
      rfl

/-- The parts of a start tag: its name, its attributes, and its end. -/
theorem startTag?_eq_some {t : StartTag} (h : startTag? cs = some (t, rest)) :
    ∃ behind, tagName? cs = some (t.tag, behind) ∧ t.attributes = (attributes behind).1 ∧
      (skipSpace (attributes behind).2 = '/' :: '>' :: rest ∨
        skipSpace (attributes behind).2 = '>' :: rest) := by
  rw [startTag?] at h
  split at h
  · cases h
  · next tag behind htag =>
    simp only at h
    split at h
    · next hend =>
      cases h
      exact ⟨behind, htag, rfl, .inl hend⟩
    · next hend =>
      cases h
      exact ⟨behind, htag, rfl, .inr hend⟩
    · cases h

end

end BehaviorIndex.Markup
