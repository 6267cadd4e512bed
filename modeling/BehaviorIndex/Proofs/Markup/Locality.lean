import BehaviorIndex.Proofs.Markup.Remainder

/-!
# What a token depends on

Most readers take a passage that shows by itself where it ends: a tag ends at its `>`, a reference
at its semicolon, a comment at its `-->`. Such a passage is taken from every text that begins with
it (`Takes`). Two tokens look further ahead. A run of character data goes on to the next `<` or `&`.
And a section that seems empty is taken as such only if the scan finds no later end of a section in
the whole text.

**Theorem (`token?_insert`).** A token before a place in a text is read the same way when something
is put into that place, provided that this begins with `<` and holds no bracket, and that the place
is none behind a bracket within character data. An instruction is no such token: it depends on what
follows on its line.
-/

namespace BehaviorIndex.Markup

/-- The reader takes a passage from the start of `cs`, with the result `a`, and does so whatever
follows the passage. The passage does not end in a bracket. -/
def Takes {α : Type} (f : List Char → Option (α × List Char)) (cs : List Char) (a : α)
    (rest : List Char) : Prop :=
  ∃ front last, last ≠ ']' ∧ cs = front ++ last :: rest ∧
    ∀ more, f (front ++ last :: more) = some (a, more)

/-! ## Space and names -/

section

variable {p : Char → Bool} {c : Char} {cs front more rest : List Char}

/-- How a text begins does not depend on what follows its first character. -/
theorem Stops.append_cons (h : Stops p (front ++ c :: rest)) (more : List Char) :
    Stops p (front ++ c :: more) := by
  cases front with
  | nil => exact stops_cons (h c rfl)
  | cons d front => exact stops_cons (h d rfl)

theorem exists_blanks (cs : List Char) :
    ∃ blanks, (∀ c ∈ blanks, isSpace c = true) ∧ cs = blanks ++ skipSpace cs :=
  ⟨cs.takeWhile isSpace, fun _ => of_mem_takeWhile, List.takeWhile_append_dropWhile.symm⟩

theorem skipSpace_append_of_stops {blanks : List Char} (hblanks : ∀ c ∈ blanks, isSpace c = true)
    (hmore : Stops isSpace more) : skipSpace (blanks ++ more) = more :=
  dropWhile_append_of_stops hblanks hmore

theorem exists_blanks_of_space? (h : space? cs = some rest) :
    ∃ blanks, cs = blanks ++ rest ∧ Stops isSpace rest ∧
      ∀ more, Stops isSpace more → space? (blanks ++ more) = some more := by
  cases cs with
  | nil => cases h
  | cons c cs =>
    rw [space?] at h
    split at h
    · next hc =>
      cases h
      obtain ⟨blanks, hblanks, hcs⟩ := exists_blanks cs
      refine ⟨c :: blanks, congrArg (c :: ·) hcs, stops_dropWhile, fun more hmore => ?_⟩
      rw [List.cons_append, space?, if_pos hc, skipSpace_append_of_stops hblanks hmore]
    · cases h

theorem name?_append_of_stops {name : List Char} (h : name? cs = some (name, rest)) :
    cs = name ++ rest ∧ Stops isNameChar rest ∧
      ∀ more, Stops isNameChar more → name? (name ++ more) = some (name, more) := by
  cases cs with
  | nil => cases h
  | cons c cs =>
    rw [name?] at h
    split at h
    · next hc =>
      cases h
      have hrun : ∀ d ∈ cs.takeWhile isNameChar, isNameChar d = true := fun _ => of_mem_takeWhile
      refine ⟨by simp, stops_dropWhile, fun more hmore => ?_⟩
      rw [List.cons_append, name?, if_pos hc, takeWhile_append_of_stops hrun hmore,
        dropWhile_append_of_stops hrun hmore]
    · cases h

theorem tagName?_append_of_stops {name : List Char} (h : tagName? cs = some (name, rest)) :
    cs = name ++ rest ∧ Stops isNameChar rest ∧
      ∀ more, Stops isNameChar more → tagName? (name ++ more) = some (name, more) := by
  cases cs with
  | nil => cases h
  | cons c cs =>
    rw [tagName?] at h
    split at h
    · next hc =>
      cases h
      have hrun : ∀ d ∈ cs.takeWhile isNameChar, isNameChar d = true := fun _ => of_mem_takeWhile
      refine ⟨by simp, stops_dropWhile, fun more hmore => ?_⟩
      rw [List.cons_append, tagName?, if_pos hc, takeWhile_append_of_stops hrun hmore,
        dropWhile_append_of_stops hrun hmore]
    · cases h

end

/-! ## Tags -/

section

variable {cs rest : List Char}

theorem takes_of_quoted? {forbidden : Char → Bool} {raw : List Char}
    (h : quoted? forbidden cs = some (raw, rest)) : Takes (quoted? forbidden) cs raw rest := by
  obtain ⟨q, hq, rfl, hraw, -⟩ := quoted?_eq_some h
  have hquote : (q == '"' || q == '\'') = true := by simpa using hq
  have hrun : ∀ c ∈ raw, (c != q) = true := fun c hc => bne_iff_ne.mpr fun heq => hraw (heq ▸ hc)
  have hread : ∀ more, quoted? forbidden (q :: (raw ++ q :: more)) =
      if raw.any forbidden || !wellReferenced raw then none else some (raw, more) := by
    intro more
    have hstop : Stops (· != q) (q :: more) := stops_cons (by simp)
    rw [quoted?, if_pos hquote, dropWhile_append_of_stops hrun hstop,
      takeWhile_append_of_stops hrun hstop]
  rw [hread] at h
  split at h
  · cases h
  · next hraw =>
    refine ⟨q :: raw, q, ?_, rfl, fun more => ?_⟩
    · rcases hq with rfl | rfl <;> decide
    · rw [List.cons_append, hread, if_neg hraw]

theorem takes_of_attribute? {a : String × String} (h : attribute? cs = some (a, rest)) :
    Takes attribute? cs a rest := by
  obtain ⟨name, behind, value, raw, hname, hequals, hraw, rfl⟩ := attribute?_eq_some h
  obtain ⟨rfl, hstops, hread⟩ := name?_append_of_stops hname
  obtain ⟨blanks, hblanks, hbehind⟩ := exists_blanks behind
  obtain ⟨blanks', hblanks', hvalue⟩ := exists_blanks value
  obtain ⟨front, last, hlast, hquoted, htake⟩ := takes_of_quoted? hraw
  have hstart : Stops isSpace (front ++ last :: rest) := hquoted ▸ stops_dropWhile
  rw [hequals] at hbehind
  rw [hbehind] at hstops
  refine ⟨name ++ blanks ++ '=' :: (blanks' ++ front), last, hlast, ?_, fun more => ?_⟩
  · rw [hbehind, hvalue, hquoted]
    simp
  · have hmore :=
      hread (blanks ++ '=' :: (blanks' ++ (front ++ last :: more))) (hstops.append_cons _)
    simp only [List.append_assoc, List.cons_append]
    rw [attribute?, hmore]
    simp only [skipSpace_append_of_stops hblanks (stops_cons (by decide : isSpace '=' = false)),
      skipSpace_append_of_stops hblanks' (hstart.append_cons more), htake, Option.map_some]

/-- Attributes are taken up to any text in which no attribute follows. -/
theorem exists_front_of_attributes (cs : List Char) :
    ∃ front, cs = front ++ (attributes cs).2 ∧
      ∀ more, attributes more = ([], more) →
        attributes (front ++ more) = ((attributes cs).1, more) := by
  fun_induction attributes cs with
  | case1 cs => exact ⟨[], rfl, fun _ hmore => hmore⟩
  | case2 cs => exact ⟨[], rfl, fun _ hmore => hmore⟩
  | case3 cs r hspace a behind ha as rest hrest ih =>
    rw [hrest] at ih
    obtain ⟨tail, hbehind, htail⟩ := ih
    obtain ⟨blanks, rfl, hstops, hblanks⟩ := exists_blanks_of_space? hspace
    obtain ⟨front, last, -, rfl, htake⟩ := takes_of_attribute? ha
    refine ⟨blanks ++ (front ++ last :: tail), by simp [hbehind], fun more hmore => ?_⟩
    simp only [List.append_assoc, List.cons_append]
    rw [attributes_of_attribute? (hblanks _ (hstops.append_cons _)) (htake _), htail more hmore]

/-- No attribute begins at the end of a tag. -/
theorem attributes_eq_nil {blanks more : List Char} (hblanks : ∀ c ∈ blanks, isSpace c = true)
    {c : Char} (hspace : isSpace c = false) (hname : isNameStart c = false) :
    attributes (blanks ++ c :: more) = ([], blanks ++ c :: more) := by
  cases blanks with
  | nil => exact attributes_of_space?_eq_none (by simp [space?, hspace])
  | cons b blanks =>
    obtain ⟨hb, hblanks⟩ := List.forall_mem_cons.mp hblanks
    have hskip : space? (b :: (blanks ++ c :: more)) = some (c :: more) := by
      rw [space?, if_pos hb, skipSpace_append_of_stops hblanks (stops_cons hspace)]
    exact attributes_of_attribute?_eq_none hskip (by simp [attribute?, name?, hname])

theorem takes_of_startTag? {t : StartTag} (h : startTag? cs = some (t, rest)) :
    Takes startTag? cs t rest := by
  rw [startTag?] at h
  split at h
  · cases h
  · next tag behind htag =>
    obtain ⟨rfl, hstops, hread⟩ := tagName?_append_of_stops htag
    obtain ⟨front, hfront, hattributes⟩ := exists_front_of_attributes behind
    obtain ⟨blanks, hblanks, hend⟩ := exists_blanks (attributes behind).2
    -- Both ends of a tag begin with a character that begins neither space nor an attribute.
    have hmore : ∀ {c : Char} {tail : List Char}, isSpace c = false → isNameStart c = false →
        skipSpace (attributes behind).2 = c :: tail → ∀ more,
        tagName? (tag ++ (front ++ (blanks ++ c :: more))) =
            some (tag, front ++ (blanks ++ c :: more)) ∧
          attributes (front ++ (blanks ++ c :: more)) =
            ((attributes behind).1, blanks ++ c :: more) ∧
          skipSpace (blanks ++ c :: more) = c :: more := by
      intro c tail hspace hname hskip more
      rw [hskip] at hend
      rw [hfront, hend, ← List.append_assoc] at hstops
      have hstops' := hstops.append_cons more
      rw [List.append_assoc] at hstops'
      exact ⟨hread _ hstops', hattributes _ (attributes_eq_nil hblanks hspace hname),
        skipSpace_append_of_stops hblanks (stops_cons hspace)⟩
    simp only at h
    split at h
    · next hskip =>
      cases h
      refine ⟨tag ++ (front ++ (blanks ++ ['/'])), '>', by decide, ?_, fun more => ?_⟩
      · simp only [List.append_assoc, List.singleton_append]
        rw [← hskip, ← hend, ← hfront]
      · obtain ⟨h₁, h₂, h₃⟩ := hmore (by decide) (by decide) hskip ('>' :: more)
        simp only [List.append_assoc, List.singleton_append]
        rw [startTag?, h₁]
        simp only [h₂, h₃]
    · next hskip =>
      cases h
      refine ⟨tag ++ (front ++ blanks), '>', by decide, ?_, fun more => ?_⟩
      · simp only [List.append_assoc]
        rw [← hskip, ← hend, ← hfront]
      · obtain ⟨h₁, h₂, h₃⟩ := hmore (by decide) (by decide) hskip more
        simp only [List.append_assoc]
        rw [startTag?, h₁]
        simp only [h₂, h₃]
    · cases h

theorem takes_of_endTag? {name : List Char} (h : endTag? cs = some (name, rest)) :
    Takes endTag? cs name rest := by
  rw [endTag?] at h
  split at h
  · cases h
  · next name' behind hname =>
    obtain ⟨rfl, hstops, hread⟩ := tagName?_append_of_stops hname
    obtain ⟨blanks, hblanks, hend⟩ := exists_blanks behind
    split at h
    · next hskip =>
      cases h
      rw [hskip] at hend
      rw [hend] at hstops
      refine ⟨name ++ blanks, '>', by decide, by rw [hend, List.append_assoc], fun more => ?_⟩
      rw [List.append_assoc, endTag?, hread _ (hstops.append_cons more)]
      simp only [skipSpace_append_of_stops hblanks (stops_cons (by decide : isSpace '>' = false))]
    · cases h

/-! ## References -/

theorem takes_of_closedRun? {p : Char → Bool} (hp : p ';' = false) {run : List Char}
    (h : closedRun? p cs = some (run, rest)) : Takes (closedRun? p) cs run rest := by
  have hrun : ∀ c ∈ cs.takeWhile p, p c = true := fun _ => of_mem_takeWhile
  rw [closedRun?] at h
  split at h
  · cases h
  · next rest' hdrop hne =>
    cases h
    have hcs := (List.takeWhile_append_dropWhile (p := p) (l := cs)).symm
    rw [hdrop] at hcs
    refine ⟨cs.takeWhile p, ';', by decide, hcs, fun more => ?_⟩
    rw [closedRun?, takeWhile_append_of_stops hrun (stops_cons hp),
      dropWhile_append_of_stops hrun (stops_cons hp)]
    split
    · next hnil => exact absurd hnil hne
    · next hcons _ => cases hcons; rfl
    · next hno => exact absurd rfl (hno _)
  · cases h

theorem takes_of_reference? {body : List Char} (h : reference? cs = some (body, rest)) :
    Takes reference? cs body rest := by
  unfold reference? at h
  split at h
  · obtain ⟨⟨run, rest'⟩, hrun, h⟩ := Option.map_eq_some_iff.mp h
    cases h
    obtain ⟨front, last, hlast, rfl, htake⟩ := takes_of_closedRun? (by decide) hrun
    refine ⟨'#' :: 'x' :: front, last, hlast, rfl, fun more => ?_⟩
    simp only [List.cons_append, reference?, htake, Option.map_some]
  · next hx =>
    obtain ⟨⟨run, rest'⟩, hrun, h⟩ := Option.map_eq_some_iff.mp h
    cases h
    obtain ⟨front, last, hlast, rfl, htake⟩ := takes_of_closedRun? (by decide) hrun
    refine ⟨'#' :: front, last, hlast, rfl, fun more => ?_⟩
    rw [List.cons_append, reference?, htake, Option.map_some]
    intro behind hbehind
    cases front with
    | nil =>
      cases hbehind
      exact hx _ rfl
    | cons c front =>
      cases hbehind
      exact hx _ rfl
  · split at h
    · next name rest' hname =>
      cases h
      obtain ⟨rfl, -, hread⟩ := name?_append_of_stops hname
      have hmore : ∀ more, name? (name ++ ';' :: more) = some (name, ';' :: more) :=
        fun more => hread _ (stops_cons (by decide))
      have hhash : ∀ more tail, name ++ ';' :: more ≠ '#' :: tail := by
        intro more tail heq
        have hnone : name? ('#' :: tail) = none := by simp [name?, isNameStart]
        rw [← heq, hmore] at hnone
        cases hnone
      refine ⟨name, ';', by decide, rfl, fun more => ?_⟩
      rw [reference?, hmore]
      · rfl
      · exact fun tail => hhash more _
      · exact fun tail => hhash more _
    · cases h

end

/-! ## Comments -/

section

variable {cs rest : List Char}

/-- What the reader of a comment takes ends in the comment's own `-->`. -/
theorem exists_body_of_commentRest? (h : commentRest? cs = some rest) :
    ∃ body, cs = body ++ '-' :: '-' :: '>' :: rest ∧
      ∀ more, commentRest? (body ++ '-' :: '-' :: '>' :: more) = some more := by
  fun_induction commentRest? cs with
  | case1 => cases h
  | case2 behind =>
    cases h
    exact ⟨[], rfl, fun more => rfl⟩
  | case3 => cases h
  | case4 c cs _ hdash ih =>
    obtain ⟨body, rfl, hread⟩ := ih h
    refine ⟨c :: body, rfl, fun more => ?_⟩
    have hdash' : ∀ tail, c = '-' → body ++ '-' :: '-' :: '>' :: more = '-' :: tail → False := by
      intro tail hc htail
      cases body with
      | nil => exact hdash _ hc rfl
      | cons d body =>
        cases htail
        exact hdash _ hc rfl
    rw [List.cons_append, commentRest?, hread]
    · exact fun tail hc htail => hdash' _ hc htail
    · exact hdash'

theorem exists_front_of_comment? (h : comment? cs = some rest) :
    ∃ front, cs = '<' :: '!' :: '-' :: '-' :: front ++ '>' :: rest ∧
      ∀ more, comment? ('<' :: '!' :: '-' :: '-' :: front ++ '>' :: more) = some more := by
  obtain ⟨behind, hopen, h⟩ := Option.bind_eq_some_iff.mp h
  obtain ⟨body, rfl, hread⟩ := exists_body_of_commentRest? h
  refine ⟨body ++ ['-', '-'], ?_, fun more => ?_⟩
  · simpa using Text.afterPrefix?_eq_some_iff.mp hopen
  · have hmore : comment? ('<' :: '!' :: '-' :: '-' :: (body ++ '-' :: '-' :: '>' :: more)) =
        commentRest? (body ++ '-' :: '-' :: '>' :: more) := rfl
    simpa [hread] using hmore

/-! ## Character data -/

/-- Text within a run of character data. -/
def IsCharData (run : List Char) : Prop := ∀ c ∈ run, (!isMarkup c) = true

/-- A run of character data ends before the text. -/
abbrev EndsRun (cs : List Char) : Prop := Stops (!isMarkup ·) cs

theorem EndsRun.cases (h : EndsRun cs) :
    cs = [] ∨ ∃ c tail, cs = c :: tail ∧ isMarkup c = true ∧ c ≠ ']' ∧ c ≠ '>' := by
  cases cs with
  | nil => exact .inl rfl
  | cons c cs =>
    have hc : isMarkup c = true := by simpa using h c rfl
    refine .inr ⟨c, cs, rfl, hc, ?_, ?_⟩
    · rintro rfl
      exact absurd hc (by decide)
    · rintro rfl
      exact absurd hc (by decide)

/-- What begins a text that goes on behind a run begins the run. -/
theorem EndsRun.exists_tail (hrest : EndsRun rest) {c : Char} {tail : List Char}
    (hc : isMarkup c = false) (h : cs ++ rest = c :: tail) : ∃ tail', cs = c :: tail' := by
  cases cs with
  | nil =>
    obtain rfl | ⟨d, rest, rfl, hd, -⟩ := hrest.cases
    · cases h
    · cases h
      exact absurd hd (by simp [hc])
  | cons d cs =>
    cases h
    exact ⟨cs, rfl⟩

theorem passOne_append (cs : List Char) (hrest : EndsRun rest) :
    passOne (cs ++ rest) = passOne cs ++ rest := by
  cases cs with
  | nil =>
    obtain rfl | ⟨c, tail, rfl, hc, -⟩ := hrest.cases
    · rfl
    · simp [passOne, hc]
  | cons c cs =>
    simp only [List.cons_append, passOne]
    split <;> rfl

theorem isCharData_passOne (h : IsCharData cs) : IsCharData (passOne cs) :=
  fun c hc => h c ((suffix_passOne cs).subset hc)

theorem strayClose?_of_endsRun (hrest : EndsRun rest) (begun : Bool) :
    strayClose? begun rest = none := by
  obtain rfl | ⟨c, tail, rfl, hc, hbracket, -⟩ := hrest.cases
  · rw [strayClose?]
  · rw [strayClose?, if_pos hc]
    all_goals simp [hbracket]

/-- The scan for a stray close does not look past its run. -/
theorem strayClose?_append (begun : Bool) {run : List Char} (hrun : IsCharData run)
    (hrest : EndsRun rest) :
    strayClose? begun (run ++ rest) = (strayClose? begun run).map (· ++ rest) := by
  have hsub : ∀ {c : Char} (cs : List Char), IsCharData (c :: cs) → IsCharData cs :=
    fun cs h d hd => h d (List.mem_cons_of_mem _ hd)
  fun_induction strayClose? begun run with
  | case1 => exact strayClose?_of_endsRun hrest _
  | case2 cs => simp [strayClose?]
  | case3 begun cs hbegun ih =>
    simp only [List.cons_append]
    rw [strayClose?, if_neg hbegun, passOne_append cs hrest]
    exact ih (isCharData_passOne (hsub cs (hsub _ (hsub _ hrun))))
  | case4 begun cs hclose ih =>
    simp only [List.cons_append]
    rw [strayClose?, passOne_append cs hrest]
    · exact ih (isCharData_passOne (hsub cs (hsub _ hrun)))
    · intro tail htail
      obtain ⟨tail', rfl⟩ := hrest.exists_tail (by decide) htail
      exact hclose _ rfl
  | case5 begun cs _ hbracket ih =>
    simp only [List.cons_append]
    rw [strayClose?, passOne_append cs hrest]
    · exact ih (isCharData_passOne (hsub cs hrun))
    · intro tail htail
      obtain ⟨tail', rfl⟩ := hrest.exists_tail (by decide) htail
      exact hbracket _ rfl
    · intro tail htail
      obtain ⟨tail', rfl⟩ := hrest.exists_tail (by decide) htail
      exact hbracket _ rfl
  | case6 begun c cs _ _ _ hc =>
    have := hrun c List.mem_cons_self
    simp [hc] at this
  | case7 begun c cs _ _ hbracket hc ih =>
    rw [List.cons_append, strayClose?, if_neg hc]
    · exact ih (hsub cs hrun)
    all_goals simp [show c ≠ ']' from hbracket]

theorem characterData?_of_run {run : List Char} (hrun : IsCharData run)
    (hstray : strayClose? false run = none) (hrest : EndsRun rest) :
    characterData? (run ++ rest) = some (.text run, rest) := by
  rw [characterData?, strayClose?_append false hrun hrest, hstray]
  simp only [Option.map_none, takeWhile_append_of_stops hrun hrest,
    dropWhile_append_of_stops hrun hrest]

/-- A run that is refused is taken up to the end of the comment behind it. -/
theorem characterData?_of_comment {run front more : List Char} (hrun : IsCharData run)
    (hstray : strayClose? false run = some [])
    (hread : comment? ('<' :: '!' :: '-' :: '-' :: front ++ '>' :: more) = some more) :
    characterData? (run ++ ('<' :: '!' :: '-' :: '-' :: front ++ '>' :: more)) =
      some (.silent, more) := by
  have hend : EndsRun ('<' :: '!' :: '-' :: '-' :: front ++ '>' :: more) :=
    stops_cons (by decide)
  rw [characterData?, strayClose?_append false hrun hend, hstray]
  simp only [Option.map_some, List.nil_append, hread]

/-- A run of character data, or a refused run and the comment behind it. -/
theorem characterData?_cases {token : Token} (h : characterData? cs = some (token, rest)) :
    (∃ run, IsCharData run ∧ cs = run ++ rest ∧ EndsRun rest ∧ token = .text run ∧
      strayClose? false run = none) ∨
    ∃ run front, IsCharData run ∧ cs = run ++ ('<' :: '!' :: '-' :: '-' :: front ++ '>' :: rest) ∧
      token = .silent ∧ strayClose? false run = some [] ∧
      ∀ more, comment? ('<' :: '!' :: '-' :: '-' :: front ++ '>' :: more) = some more := by
  have hcs := (List.takeWhile_append_dropWhile (p := (!isMarkup ·)) (l := cs)).symm
  have hrun : IsCharData (cs.takeWhile (!isMarkup ·)) := fun _ => of_mem_takeWhile
  have hend : EndsRun (cs.dropWhile (!isMarkup ·)) := stops_dropWhile
  have hscan := strayClose?_append false hrun hend
  rw [← hcs] at hscan
  rw [characterData?, hscan] at h
  cases hstray : strayClose? false (cs.takeWhile (!isMarkup ·)) with
  | none =>
    simp only [hstray, Option.map_none] at h
    cases h
    exact .inl ⟨_, hrun, hcs, hend, rfl, hstray⟩
  | some behind =>
    simp only [hstray, Option.map_some] at h
    obtain ⟨rest', hcomment, h⟩ := Option.map_eq_some_iff.mp h
    cases h
    obtain ⟨front, hfront, hread⟩ := exists_front_of_comment? hcomment
    cases behind with
    | nil =>
      rw [List.nil_append] at hfront
      exact .inr ⟨_, front, hrun, hfront ▸ hcs, rfl, hstray, hread⟩
    | cons c behind =>
      -- The comment would begin inside the run.
      have hc : c = '<' := (List.cons.inj hfront).1
      have := hrun c ((suffix_of_strayClose? hstray).subset List.mem_cons_self)
      simp [hc, isMarkup] at this

/-! ## Sections -/

/-- The scan for the end of a section finds none, from a place behind its start. -/
def Unclosed (cs : List Char) : Prop := sectionScan? true cs = none

theorem unclosed_nil : Unclosed [] := rfl

theorem unclosed_cons {c : Char} (hc : c ≠ ']') : Unclosed (c :: cs) ↔ Unclosed cs := by
  rw [Unclosed, sectionScan?, Option.map_eq_none_iff, Unclosed]
  all_goals simp [hc]

theorem unclosed_bracket {c : Char} (hc : c ≠ ']') : Unclosed (']' :: c :: cs) ↔ Unclosed cs := by
  rw [Unclosed, sectionScan?, Option.map_eq_none_iff, Unclosed]
  simp [hc]

theorem unclosed_brackets {c : Char} :
    Unclosed (']' :: ']' :: c :: cs) ↔ c ≠ '>' ∧ Unclosed cs := by
  rw [Unclosed, sectionScan?]
  by_cases hc : c = '>'
  · simp [hc]
  · simp [hc, Unclosed]

theorem unclosed_append {more : List Char} (hmore : ']' ∉ more) :
    Unclosed (more ++ cs) ↔ Unclosed cs := by
  induction more with
  | nil => rfl
  | cons c more ih =>
    obtain ⟨hc, hmore⟩ := List.ne_and_not_mem_of_not_mem_cons hmore
    rw [List.cons_append, unclosed_cons hc.symm, ih hmore]

/-- A place behind a bracket does not stand within character data. -/
def Apart (front after : List Char) : Prop := front.getLast? = some ']' → EndsRun after

theorem Apart.of_append {front behind after : List Char} (h : Apart (front ++ behind) after) :
    Apart behind after :=
  fun hlast => h (by simp [hlast])

theorem Apart.tail {c : Char} {front after : List Char} (h : Apart (c :: front) after) :
    Apart front after :=
  Apart.of_append (show Apart ([c] ++ front) after from h)

/-- What begins with `<` and has no bracket does not close a section. -/
theorem Unclosed.insert {front more after : List Char} (hmore : ']' ∉ '<' :: more)
    (hapart : Apart front after) (h : Unclosed (front ++ after)) :
    Unclosed (front ++ ('<' :: more ++ after)) := by
  have hmore' : ']' ∉ more := fun hmem => hmore (List.mem_cons_of_mem _ hmem)
  match front with
  | [] => exact (unclosed_append hmore).mpr h
  | c :: front =>
    by_cases hc : c = ']'
    · subst hc
      -- The scan passes one bracket or two together with the character behind them. Where that
      -- character is the first one behind `front`, it is no bracket either way.
      match front with
      | [] =>
        refine (unclosed_bracket (by decide)).mpr ((unclosed_append hmore').mpr ?_)
        obtain rfl | ⟨c, tail, rfl, -, hc, -⟩ := (hapart rfl).cases
        · exact unclosed_nil
        · exact (unclosed_cons hc).mpr ((unclosed_bracket hc).mp h)
      | d :: front =>
        by_cases hd : d = ']'
        · subst hd
          match front with
          | [] =>
            refine unclosed_brackets.mpr ⟨by decide, (unclosed_append hmore').mpr ?_⟩
            obtain rfl | ⟨c, tail, rfl, -, hc, -⟩ := (hapart rfl).cases
            · exact unclosed_nil
            · exact (unclosed_cons hc).mpr (unclosed_brackets.mp h).2
          | e :: front =>
            obtain ⟨he, h⟩ := unclosed_brackets.mp h
            exact unclosed_brackets.mpr ⟨he, h.insert hmore hapart.tail.tail.tail⟩
        · have h := (unclosed_bracket hd).mp h
          exact (unclosed_bracket hd).mpr (h.insert hmore hapart.tail.tail)
    · have h := (unclosed_cons hc).mp h
      exact (unclosed_cons hc).mpr (h.insert hmore hapart.tail)

/-- The scan for the end of a section does not look past the end it finds. -/
theorem exists_front_of_sectionScan? {begun : Bool} {text : List Char}
    (h : sectionScan? begun cs = some (text, rest)) :
    ∃ front, cs = front ++ '>' :: rest ∧
      ∀ more, sectionScan? begun (front ++ '>' :: more) = some (text, more) := by
  fun_induction sectionScan? begun cs generalizing text with
  | case1 => cases h
  | case2 begun c cs hclose =>
    cases h
    obtain ⟨hbegun, rfl⟩ : begun = true ∧ c = '>' := by simpa using hclose
    exact ⟨[']', ']'], rfl, fun more => by simp [sectionScan?, hbegun]⟩
  | case3 begun c cs hclose ih =>
    obtain ⟨⟨text', rest'⟩, hscan, h⟩ := Option.map_eq_some_iff.mp h
    cases h
    obtain ⟨front, rfl, hread⟩ := ih hscan
    refine ⟨']' :: ']' :: c :: front, rfl, fun more => ?_⟩
    simp only [List.cons_append]
    rw [sectionScan?, if_neg hclose, hread, Option.map_some]
  | case4 begun c cs hbrackets ih =>
    obtain ⟨⟨text', rest'⟩, hscan, h⟩ := Option.map_eq_some_iff.mp h
    cases h
    obtain ⟨front, rfl, hread⟩ := ih hscan
    have hc : c ≠ ']' := by
      rintro rfl
      cases front <;> exact hbrackets _ _ rfl rfl
    refine ⟨']' :: c :: front, rfl, fun more => ?_⟩
    simp only [List.cons_append]
    rw [sectionScan?, hread, Option.map_some]
    simp [hc]
  | case5 begun c cs _ hbracket ih =>
    obtain ⟨⟨text', rest'⟩, hscan, h⟩ := Option.map_eq_some_iff.mp h
    cases h
    obtain ⟨front, rfl, hread⟩ := ih hscan
    have hc : c ≠ ']' := by
      rintro rfl
      cases front <;> exact hbracket _ _ rfl rfl
    refine ⟨c :: front, rfl, fun more => ?_⟩
    rw [List.cons_append, sectionScan?, hread, Option.map_some]
    all_goals simp [hc]

/-- A section is taken with the end that the scan finds, or it is empty and none is found. -/
theorem sectionBody?_cases {text : List Char} (h : sectionBody? cs = some (text, rest)) :
    (∃ front, cs = front ++ '>' :: rest ∧
      ∀ more, sectionBody? (front ++ '>' :: more) = some (text, more)) ∨
    cs = ']' :: ']' :: '>' :: rest ∧ text = [] ∧ Unclosed rest := by
  rw [sectionBody?] at h
  split at h
  · next hscan =>
    cases h
    obtain ⟨front, hcs, hread⟩ := exists_front_of_sectionScan? hscan
    exact .inl ⟨front, hcs, fun more => by rw [sectionBody?, hread]⟩
  · next hscan =>
    obtain ⟨rest', hclose, h⟩ := Option.map_eq_some_iff.mp h
    cases h
    have hcs : cs = ']' :: ']' :: '>' :: rest := Text.afterPrefix?_eq_some_iff.mp hclose
    rw [hcs] at hscan
    have hscan' : sectionScan? true rest = none := by simpa [sectionScan?] using hscan
    exact .inr ⟨hcs, rfl, hscan'⟩

theorem sectionBody?_of_unclosed (h : Unclosed rest) :
    sectionBody? (']' :: ']' :: '>' :: rest) = some ([], rest) := by
  have hscan : sectionScan? false (']' :: ']' :: '>' :: rest) = none := by
    simp [sectionScan?, show sectionScan? true rest = none from h]
  rw [sectionBody?, hscan]
  rfl

/-! ## Tokens -/

theorem token?_of_startTag? {cs rest : List Char} {t : StartTag}
    (h : startTag? cs = some (t, rest)) : token? ('<' :: cs) = some (.start t, rest) := by
  obtain ⟨behind, htag, -⟩ := startTag?_eq_some h
  cases cs with
  | nil => cases htag
  | cons c cs =>
    rw [tagName?] at htag
    split at htag
    · next hc =>
      rw [token?, h]
      · rfl
      all_goals
        rintro _ ⟨⟩
        exact absurd hc (by decide)
    · cases htag

theorem token?_comment {body : List Char} (h : commentRest? body = some rest) :
    token? ('<' :: '!' :: '-' :: '-' :: body) = some (.silent, rest) := by
  have hopen : token? ('<' :: '!' :: '-' :: '-' :: body) = (commentRest? body).map (.silent, ·) :=
    rfl
  rw [hopen, h, Option.map_some]

theorem token?_section {body text : List Char} (h : sectionBody? body = some (text, rest)) :
    token? ("<![CDATA[".toList ++ body) = some (.text text, rest) := by
  have hopen : token? ("<![CDATA[".toList ++ body) =
      (sectionBody? body).map fun found => (.text found.1, found.2) :=
    rfl
  rw [hopen, h, Option.map_some]

theorem token?_of_run {c : Char} (hc : isMarkup c = false) (cs : List Char) :
    token? (c :: cs) = characterData? (c :: cs) := by
  have hne : c ≠ '<' ∧ c ≠ '&' := by simpa [isMarkup] using hc
  rw [token?]
  all_goals simp [hne]

/-- **What a token depends on.** A token is taken from every text that begins with its passage,
unless it is a run of character data, an empty section, or an instruction. -/
theorem token?_extent {token : Token} (h : token? cs = some (token, rest)) :
    Takes token? cs token rest ∨
    (∃ run, IsCharData run ∧ cs = run ++ rest ∧ EndsRun rest ∧
      ∀ more, EndsRun more → token? (run ++ more) = some (token, more)) ∨
    (∃ opening, cs = opening ++ '>' :: rest ∧ Unclosed rest ∧
      ∀ more, Unclosed more → token? (opening ++ '>' :: more) = some (token, more)) ∨
    ['<', '?'] <+: cs := by
  unfold token? at h
  split at h
  · cases h
  · next behind =>
    obtain ⟨⟨name, rest'⟩, hend, h⟩ := Option.map_eq_some_iff.mp h
    cases h
    obtain ⟨front, last, hlast, rfl, htake⟩ := takes_of_endTag? hend
    refine .inl ⟨'<' :: '/' :: front, last, hlast, rfl, fun more => ?_⟩
    simp only [List.cons_append, token?, htake, Option.map_some]
  · next behind =>
    split at h
    · next body hopen =>
      obtain ⟨rest', hbody, h⟩ := Option.map_eq_some_iff.mp h
      cases h
      have hbehind : behind = '-' :: '-' :: body := Text.afterPrefix?_eq_some_iff.mp hopen
      obtain ⟨body, rfl, hread⟩ := exists_body_of_commentRest? hbody
      subst hbehind
      refine .inl ⟨'<' :: '!' :: '-' :: '-' :: (body ++ ['-', '-']), '>', by decide, by simp,
        fun more => ?_⟩
      have hmore := token?_comment (hread more)
      simpa using hmore
    · next hcomment =>
      obtain ⟨⟨text, rest'⟩, hsection, h⟩ := Option.map_eq_some_iff.mp h
      cases h
      obtain ⟨body, hopen, hbody⟩ := Option.bind_eq_some_iff.mp hsection
      have hbehind : behind = "[CDATA[".toList ++ body := Text.afterPrefix?_eq_some_iff.mp hopen
      subst hbehind
      obtain ⟨front, rfl, hread⟩ | ⟨rfl, rfl, hunclosed⟩ := sectionBody?_cases hbody
      · refine .inl ⟨'<' :: '!' :: ("[CDATA[".toList ++ front), '>', by decide, by simp,
          fun more => ?_⟩
        have hmore := token?_section (hread more)
        simpa using hmore
      · refine .inr (.inr (.inl ⟨"<![CDATA[]]".toList, rfl, hunclosed, fun more hmore => ?_⟩))
        exact token?_section (sectionBody?_of_unclosed hmore)
  · next behind => exact .inr (.inr (.inr ⟨behind, rfl⟩))
  · next behind _ _ _ =>
    obtain ⟨⟨t, rest'⟩, hstart, h⟩ := Option.map_eq_some_iff.mp h
    cases h
    obtain ⟨front, last, hlast, rfl, htake⟩ := takes_of_startTag? hstart
    exact .inl ⟨'<' :: front, last, hlast, rfl, fun more => token?_of_startTag? (htake more)⟩
  · next behind =>
    obtain ⟨⟨body, rest'⟩, hbody, h⟩ := Option.map_eq_some_iff.mp h
    cases h
    obtain ⟨front, last, hlast, rfl, htake⟩ := takes_of_reference? hbody
    refine .inl ⟨'&' :: front, last, hlast, rfl, fun more => ?_⟩
    simp only [List.cons_append, token?, htake, Option.map_some]
  · next c behind _ _ _ hlt hamp =>
    have hc : isMarkup c = false := by simpa [isMarkup] using And.intro hlt hamp
    -- The run is not empty, because the text does not begin with markup.
    have hread : ∀ {run tail : List Char}, c :: behind = run ++ tail → EndsRun tail →
        ∀ more, token? (run ++ more) = characterData? (run ++ more) := by
      intro run tail hcs htail more
      cases run with
      | nil =>
        rw [List.nil_append] at hcs
        have := htail c (by rw [← hcs]; rfl)
        simp [hc] at this
      | cons d run =>
        cases hcs
        exact token?_of_run hc _
    obtain ⟨run, hrun, hcs, hrest, rfl, hstray⟩ | ⟨run, front, hrun, hcs, rfl, hstray, hcomment⟩ :=
      characterData?_cases h
    · refine .inr (.inl ⟨run, hrun, hcs, hrest, fun more hmore => ?_⟩)
      rw [hread hcs hrest, characterData?_of_run hrun hstray hmore]
    · refine .inl ⟨run ++ ('<' :: '!' :: '-' :: '-' :: front), '>', by decide, by simp [hcs],
        fun more => ?_⟩
      rw [List.append_assoc, hread hcs (stops_cons (by decide)),
        characterData?_of_comment hrun hstray (hcomment more)]

/-- The passage of a token does not end in a bracket, unless it is a run of character data. -/
theorem apart_of_token? {passage : List Char} {token : Token}
    (hplain : ¬ ['<', '?'] <+: passage ++ rest)
    (h : token? (passage ++ rest) = some (token, rest)) : Apart passage rest := by
  intro hbracket
  obtain ⟨front, last, hne, hcs, -⟩ | ⟨_, -, -, hrest, -⟩ | ⟨opening, hcs, -⟩ | hquestion :=
    token?_extent h
  · have hpassage : passage = front ++ [last] := List.append_cancel_right (hcs.trans (by simp))
    rw [hpassage, List.getLast?_concat, Option.some.injEq] at hbracket
    exact absurd hbracket hne
  · exact hrest
  · have hpassage : passage = opening ++ ['>'] := List.append_cancel_right (hcs.trans (by simp))
    rw [hpassage, List.getLast?_concat] at hbracket
    cases hbracket
  · exact absurd hquestion hplain

/-- **Insertion.** A token before a place in a text is read as before when something is put there
that begins with `<` and has no bracket. -/
theorem token?_insert {front behind more after : List Char} {token : Token}
    (hplain : ¬ ['<', '?'] <+: front ++ after) (hmore : ']' ∉ '<' :: more)
    (hapart : Apart front after) (h : token? (front ++ after) = some (token, behind ++ after)) :
    token? (front ++ ('<' :: more ++ after)) = some (token, behind ++ ('<' :: more ++ after)) := by
  obtain ⟨passage, last, -, hcs, htake⟩ | ⟨run, -, hcs, hrest, hread⟩ |
    ⟨opening, hcs, hunclosed, hread⟩ | hquestion := token?_extent h
  · have hfront : front = passage ++ last :: behind :=
      List.append_cancel_right (hcs.trans (by simp))
    rw [hfront, List.append_assoc]
    exact htake _
  · have hfront : front = run ++ behind := List.append_cancel_right (hcs.trans (by simp))
    rw [hfront, List.append_assoc]
    refine hread _ ?_
    cases behind with
    | nil => exact stops_cons (by decide)
    | cons c behind => exact stops_cons (hrest c rfl)
  · have hfront : front = opening ++ '>' :: behind :=
      List.append_cancel_right (hcs.trans (by simp))
    rw [hfront] at hapart
    rw [hfront, List.append_assoc]
    exact hread _ (hunclosed.insert hmore hapart.of_append.tail)
  · exact absurd hquestion hplain

end

end BehaviorIndex.Markup
