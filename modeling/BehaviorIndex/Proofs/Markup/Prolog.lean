import BehaviorIndex.Markup.Document

/-!
# Where the root element begins

Whatever may stand around the root element begins with `<!` or `<?`, so none of it is taken for a
tag.
-/

namespace BehaviorIndex.Markup

section

variable {c : Char} {cs : List Char}

theorem comment?_eq_none (h : c ≠ '!') : comment? ('<' :: c :: cs) = none := by
  simp [comment?, literal?, Text.afterPrefix?, Ne.symm h]

theorem literal?_question_eq_none (h : c ≠ '?') : literal? "<?" ('<' :: c :: cs) = none := by
  simp [literal?, Text.afterPrefix?, Ne.symm h]

theorem declaration?_eq_none (h : c ≠ '?') : declaration? ('<' :: c :: cs) = none := by
  simp [declaration?, literal?, Text.afterPrefix?, Ne.symm h]

theorem doctype?_eq_none (h : c ≠ '!') : doctype? ('<' :: c :: cs) = none := by
  simp [doctype?, literal?, Text.afterPrefix?, Ne.symm h]

theorem aside?_eq_none (hbang : c ≠ '!') (hquestion : c ≠ '?') :
    aside? ('<' :: c :: cs) = none := by
  rw [aside?, comment?_eq_none hbang, literal?_question_eq_none hquestion]
  rfl

theorem skipAsides_of_aside?_eq_none (h : aside? (skipSpace cs) = none) :
    skipAsides cs = skipSpace cs := by
  rw [skipAsides]
  split
  · next hs => simp [h] at hs
  · rfl

theorem skipAsides_nil : skipAsides [] = [] := by
  rw [skipAsides]
  rfl

/-- A text that begins with a tag has no prolog. -/
theorem skipProlog_of_tag (hbang : c ≠ '!') (hquestion : c ≠ '?') :
    skipProlog ('<' :: c :: cs) = '<' :: c :: cs := by
  have hspace : skipSpace ('<' :: c :: cs) = '<' :: c :: cs := rfl
  have hasides : skipAsides ('<' :: c :: cs) = '<' :: c :: cs := by
    rw [skipAsides_of_aside?_eq_none] <;> rw [hspace]
    exact aside?_eq_none hbang hquestion
  simp only [skipProlog, hspace, declaration?_eq_none hquestion, Option.getD_none, hasides,
    doctype?_eq_none hbang]

end

end BehaviorIndex.Markup
