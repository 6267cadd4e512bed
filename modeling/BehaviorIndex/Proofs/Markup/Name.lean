import BehaviorIndex.Markup.Name

/-!
# Names and the runs they end

A reader takes the longest run of characters of a class, so what it takes depends on the character
behind the run. `Stops p cs` says that a run of the class `p` ends before `cs`.
-/

namespace BehaviorIndex.Markup

/-! ## Runs of a class -/

/-- The text does not begin with a character of the class `p`. -/
def Stops (p : Char → Bool) (cs : List Char) : Prop := ∀ c ∈ cs.head?, p c = false

section

variable {p : Char → Bool} {c : Char} {cs run rest : List Char}

theorem stops_cons (h : p c = false) : Stops p (c :: cs) := by
  intro d hd
  cases hd
  exact h

theorem stops_dropWhile : Stops p (cs.dropWhile p) := by
  intro c hc
  have := List.head?_dropWhile_not p cs
  rw [Option.mem_def.mp hc] at this
  simpa using this

theorem of_mem_takeWhile (h : c ∈ cs.takeWhile p) : p c = true :=
  List.all_eq_true.mp List.all_takeWhile c h

theorem takeWhile_append_of_stops (hrun : ∀ c ∈ run, p c = true) (hrest : Stops p rest) :
    (run ++ rest).takeWhile p = run := by
  rw [List.takeWhile_append_of_pos hrun]
  cases rest with
  | nil => simp
  | cons c rest => rw [List.takeWhile_cons_of_neg (by simp [hrest c rfl]), List.append_nil]

theorem dropWhile_append_of_stops (hrun : ∀ c ∈ run, p c = true) (hrest : Stops p rest) :
    (run ++ rest).dropWhile p = rest := by
  rw [List.dropWhile_append_of_pos hrun]
  cases rest with
  | nil => rfl
  | cons c rest => rw [List.dropWhile_cons_of_neg (by simp [hrest c rfl])]

end

/-! ## Names -/

theorem isNameChar_of_isNameStart {c : Char} (h : isNameStart c = true) : isNameChar c = true := by
  simp only [isNameStart, Bool.or_eq_true] at h
  rcases h with h | h <;> simp [isNameChar, Char.isAlphanum, h]

theorem not_isSpace_of_isNameChar {c : Char} (h : isNameChar c = true) : isSpace c = false := by
  rw [← Bool.not_eq_true]
  intro hspace
  simp only [isSpace, Bool.or_eq_true, beq_iff_eq] at hspace
  rcases hspace with ((rfl | rfl) | rfl) | rfl <;> exact absurd h (by decide)

theorem skipSpace_of_stops {cs : List Char} (h : Stops isSpace cs) : skipSpace cs = cs := by
  have hrun : ∀ c ∈ [], isSpace c = true := by simp
  exact dropWhile_append_of_stops hrun h

/-- The text can be the name of a tag. -/
structure IsTagName (tag : String) : Prop where
  nonempty : tag.toList ≠ []
  chars : ∀ c ∈ tag.toList, isNameChar c = true

/-- The text can be the name of an attribute. -/
def IsName (name : String) : Prop :=
  ∃ c cs, name.toList = c :: cs ∧ isNameStart c = true ∧ ∀ d ∈ cs, isNameChar d = true

theorem IsName.chars {name : String} (h : IsName name) :
    ∀ c ∈ name.toList, isNameChar c = true := by
  obtain ⟨c, cs, hname, hc, hcs⟩ := h
  rw [hname]
  exact List.forall_mem_cons.mpr ⟨isNameChar_of_isNameStart hc, hcs⟩

theorem tagName?_append {tag : String} (h : IsTagName tag) {rest : List Char}
    (hrest : Stops isNameChar rest) : tagName? (tag.toList ++ rest) = some (tag.toList, rest) := by
  obtain ⟨c, cs, hcs⟩ := List.exists_cons_of_ne_nil h.nonempty
  have hchars := List.forall_mem_cons.mp (hcs ▸ h.chars)
  rw [hcs, List.cons_append, tagName?, if_pos hchars.1, takeWhile_append_of_stops hchars.2 hrest,
    dropWhile_append_of_stops hchars.2 hrest]

theorem name?_append {name : String} (h : IsName name) {rest : List Char}
    (hrest : Stops isNameChar rest) : name? (name.toList ++ rest) = some (name.toList, rest) := by
  obtain ⟨c, cs, hname, hc, hcs⟩ := h
  rw [hname, List.cons_append, name?, if_pos hc, takeWhile_append_of_stops hcs hrest,
    dropWhile_append_of_stops hcs hrest]

end BehaviorIndex.Markup
