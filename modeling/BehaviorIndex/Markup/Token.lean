import BehaviorIndex.Markup.Tag

/-!
# The tokens of an element's content

Content is a sequence of tokens: tags, texts, and comments or processing instructions, which are
*silent*. `token?` reads the token at the start of a text.

**Character data.** A run of character data ends before the next `<` or `&`. It must not hold `]]>`,
but the scan for it is coarse: after every look at a bracket it passes over one further character,
and it forgives a close at the very start of the run (`strayClose?`). A run that is refused still
counts, together with a comment directly behind the stray close, as a comment.

**Sections.** `<![CDATA[` begins a section that ends at `]]>`. Its scan is coarse in the same way,
so a section that is empty, or whose text ends in a bracket, runs on to a later `]]>`
(`sectionBody?`).

**Instructions.** An instruction with content must be the last thing on its line. Outside the root
element the targets `xml-model` and `xml-stylesheet` take attributes instead.
-/

namespace BehaviorIndex.Markup

/-! ## Comments -/

/-- What follows the comment whose `<!--` stands before `cs`. The first `--` has to close it. -/
def commentRest? : List Char → Option (List Char)
  | [] => none
  | '-' :: '-' :: '>' :: rest => some rest
  | '-' :: '-' :: _ => none
  | _ :: cs => commentRest? cs

def comment? (cs : List Char) : Option (List Char) := (literal? "<!--" cs).bind commentRest?

/-! ## Character data -/

/-- Ends a run of character data. -/
def isMarkup (c : Char) : Bool := c == '<' || c == '&'

/-- Pass over one character, unless the run ends here. -/
def passOne : List Char → List Char
  | [] => []
  | c :: cs => if isMarkup c then c :: cs else cs

theorem length_passOne_le (cs : List Char) : (passOne cs).length ≤ cs.length := by
  unfold passOne
  split
  · simp
  · split <;> simp

/-- What follows the stray `]]>` for which a run of character data is refused; `none` if the run is
accepted. `begun` tells whether the scan has passed the start of the run. -/
def strayClose? (begun : Bool) : List Char → Option (List Char)
  | [] => none
  | ']' :: ']' :: '>' :: cs => if begun then some cs else strayClose? true (passOne cs)
  | ']' :: ']' :: cs => strayClose? true (passOne cs)
  | ']' :: cs => strayClose? true (passOne cs)
  | c :: cs => if isMarkup c then none else strayClose? true cs
termination_by cs => cs.length
decreasing_by
  all_goals simp only [List.length_cons]
  · have := length_passOne_le cs
    omega
  · have := length_passOne_le cs
    omega
  · have := length_passOne_le cs
    omega
  · omega

/-! ## Sections -/

/-- The text of a section up to the `]]>` that the scan finds, and what follows it. -/
def sectionScan? (begun : Bool) : List Char → Option (List Char × List Char)
  | [] => none
  | ']' :: ']' :: c :: cs =>
    if begun && c == '>' then some ([], cs)
    else (sectionScan? true cs).map fun (text, rest) => (']' :: ']' :: c :: text, rest)
  | ']' :: c :: cs => (sectionScan? true cs).map fun (text, rest) => (']' :: c :: text, rest)
  | c :: cs => (sectionScan? true cs).map fun (text, rest) => (c :: text, rest)

/-- The text of the section whose `<![CDATA[` stands before `cs`, and what follows the section. If
the scan finds no end, the section may still be empty. -/
def sectionBody? (cs : List Char) : Option (List Char × List Char) :=
  match sectionScan? false cs with
  | some found => some found
  | none => (literal? "]]>" cs).map fun rest => ([], rest)

/-! ## Instructions -/

def isTargetStart (c : Char) : Bool := c.isAlpha || c == '_' || c == ':'

/-- Match a word as far as it goes: whether all of it is there, and what follows the matched
characters. -/
def matchWord : List Char → List Char → Bool × List Char
  | [], cs => (true, cs)
  | _ :: _, [] => (false, [])
  | w :: ws, c :: cs => if w == c then matchWord ws cs else (false, c :: cs)

/-- The scan of a target that begins with `xm` in either case, from behind these letters. The target
`xml` is refused. Behind `xml-` the words `model` and `stylesheet` are refused when `outside`, and
passed as far as they match. One further character belongs to the target in any case. -/
def reservedTarget? (outside : Bool) (cs : List Char) : Option (List Char) :=
  match cs with
  | l :: cs' =>
    if l == 'l' || l == 'L' then
      match cs' with
      | c :: cs =>
        if !isNameChar c then none
        else if outside && c == '-' then
          let (model, cs) := matchWord "model".toList cs
          let (stylesheet, cs) := matchWord "stylesheet".toList cs
          if model || stylesheet then none else some (cs.drop 1)
        else some (cs.drop 1)
      | [] => none
    else some cs'
  | [] => some []

/-- What follows the target of an instruction. -/
def target? (outside : Bool) : List Char → Option (List Char)
  | [] => none
  | c :: cs =>
    if !isTargetStart c then none
    else
      let scanned := match cs with
        | m :: cs' =>
          if (c == 'x' || c == 'X') && (m == 'm' || m == 'M') then reservedTarget? outside cs'
          else some cs
        | [] => some cs
      scanned.map (List.dropWhile isNameChar)

/-- What follows the content of an instruction and its `?>`: the content holds no line end and no
question mark, and nothing but spaces may follow on the line. -/
def instructionContent? (cs : List Char) : Option (List Char) :=
  match cs.dropWhile fun c => c != '\n' && c != '?' with
  | '?' :: '>' :: rest =>
    match rest.dropWhile (· == ' ') with
    | '\n' :: _ => some rest
    | _ => none
  | _ => none

/-- An instruction with attributes instead of content, from behind its target. -/
def attributed? (cs : List Char) : Option (List Char) :=
  literal? "?>" (skipSpace (attributes cs).2)

/-- What follows the instruction whose `<?` stands before `cs`. -/
def instruction? (outside : Bool) (cs : List Char) : Option (List Char) :=
  match if outside then (literal? "xml-model" cs <|> literal? "xml-stylesheet" cs) else none with
  | some rest => attributed? rest
  | none =>
    (target? outside cs).bind fun rest =>
      match literal? "?>" rest with
      | some rest => some rest
      | none => (space? rest).bind instructionContent?

/-! ## Tokens -/

inductive Token where
  | start (tag : StartTag)
  | close (name : List Char)
  | text (cs : List Char)
  | silent

/-- The run of character data at the start of a text. -/
def characterData? (cs : List Char) : Option (Token × List Char) :=
  match strayClose? false cs with
  | some rest => (comment? rest).map (.silent, ·)
  | none => some (.text (cs.takeWhile (!isMarkup ·)), cs.dropWhile (!isMarkup ·))

/-- The token at the start of a text within an element, and what follows it. References are decoded
and sections are taken as they are. -/
def token? : List Char → Option (Token × List Char)
  | [] => none
  | '<' :: '/' :: cs => (endTag? cs).map fun (name, rest) => (.close name, rest)
  | '<' :: '!' :: cs =>
    match literal? "--" cs with
    | some cs => (commentRest? cs).map (.silent, ·)
    | none =>
      ((literal? "[CDATA[" cs).bind sectionBody?).map fun (text, rest) => (.text text, rest)
  | '<' :: '?' :: cs => (instruction? false cs).map (.silent, ·)
  | '<' :: cs => (startTag? cs).map fun (t, rest) => (.start t, rest)
  | '&' :: cs => (reference? cs).map fun (body, rest) => (.text (decode ('&' :: body)), rest)
  | c :: cs => characterData? (c :: cs)

/-! ## What is left is shorter -/

theorem length_of_commentRest? {cs rest : List Char} (h : commentRest? cs = some rest) :
    rest.length < cs.length := by
  fun_induction commentRest? cs with
  | case1 => simp at h
  | case2 => cases h; simp only [List.length_cons]; omega
  | case3 => simp at h
  | case4 _ cs _ _ ih => have := ih h; simp only [List.length_cons]; omega

theorem length_of_comment? {cs rest : List Char} (h : comment? cs = some rest) :
    rest.length < cs.length := by
  simp only [comment?, Option.bind_eq_some_iff] at h
  obtain ⟨r, hr, h⟩ := h
  have h₁ := length_of_literal? hr
  have h₂ := length_of_commentRest? h
  omega

theorem length_of_strayClose? {begun : Bool} {cs rest : List Char}
    (h : strayClose? begun cs = some rest) : rest.length < cs.length := by
  fun_induction strayClose? begun cs with
  | case1 => simp at h
  | case2 => cases h; simp only [List.length_cons]; omega
  | case3 _ cs _ ih =>
    have := ih h; have := length_passOne_le cs; simp only [List.length_cons]; omega
  | case4 _ cs _ ih =>
    have := ih h; have := length_passOne_le cs; simp only [List.length_cons]; omega
  | case5 _ cs _ _ ih =>
    have := ih h; have := length_passOne_le cs; simp only [List.length_cons]; omega
  | case6 => simp at h
  | case7 _ _ _ _ _ _ _ ih => have := ih h; simp only [List.length_cons]; omega

theorem length_of_sectionScan? {begun : Bool} {cs text rest : List Char}
    (h : sectionScan? begun cs = some (text, rest)) : rest.length < cs.length := by
  fun_induction sectionScan? begun cs generalizing text with
  | case1 => simp at h
  | case2 => cases h; simp only [List.length_cons]; omega
  | case3 _ _ _ _ ih | case4 _ _ _ _ ih | case5 _ _ _ _ _ ih =>
    simp only [Option.map_eq_some_iff, Prod.exists, Prod.mk.injEq] at h
    obtain ⟨t, r, hr, -, rfl⟩ := h
    have := ih hr
    simp only [List.length_cons]
    omega

theorem length_of_sectionBody? {cs text rest : List Char}
    (h : sectionBody? cs = some (text, rest)) : rest.length < cs.length := by
  unfold sectionBody? at h
  split at h
  · next hs =>
    cases h
    exact length_of_sectionScan? hs
  · simp only [Option.map_eq_some_iff, Prod.mk.injEq] at h
    obtain ⟨r, hr, -, rfl⟩ := h
    have := length_of_literal? hr
    simp at this
    omega

theorem length_matchWord_le (ws cs : List Char) : (matchWord ws cs).2.length ≤ cs.length := by
  fun_induction matchWord ws cs <;> simp_all only [List.length_cons, Nat.le_refl]
  omega

theorem length_of_reservedTarget? {outside : Bool} {cs rest : List Char}
    (h : reservedTarget? outside cs = some rest) : rest.length ≤ cs.length := by
  unfold reservedTarget? at h
  split at h
  · next l cs' =>
    split at h
    · split at h
      · next c cs =>
        split at h
        · simp at h
        · split at h
          · have h₁ := length_matchWord_le "model".toList cs
            have h₂ := length_matchWord_le "stylesheet".toList (matchWord "model".toList cs).2
            simp only at h
            split at h
            · simp at h
            · cases h
              simp only [List.length_drop, List.length_cons]
              omega
          · cases h
            simp only [List.length_drop, List.length_cons]
            omega
      · simp at h
    · cases h
      simp
  · cases h
    simp

theorem length_of_target? {outside : Bool} {cs rest : List Char}
    (h : target? outside cs = some rest) : rest.length < cs.length := by
  match cs with
  | [] => simp [target?] at h
  | c :: cs =>
    simp only [target?] at h
    split at h
    · simp at h
    · simp only [Option.map_eq_some_iff] at h
      obtain ⟨r, hr, rfl⟩ := h
      have h₁ := length_dropWhile_le isNameChar r
      have h₂ : r.length ≤ cs.length := by
        split at hr
        · split at hr
          · have := length_of_reservedTarget? hr
            simp only [List.length_cons]
            omega
          · cases hr
            simp
        · cases hr
          simp
      simp only [List.length_cons]
      omega

theorem length_of_instructionContent? {cs rest : List Char}
    (h : instructionContent? cs = some rest) : rest.length < cs.length := by
  unfold instructionContent? at h
  have := length_dropWhile_le (fun c => c != '\n' && c != '?') cs
  split at h
  · next hd =>
    rw [hd] at this
    split at h
    · cases h
      simp only [List.length_cons] at this
      omega
    · simp at h
  · simp at h

theorem length_of_attributed? {cs rest : List Char} (h : attributed? cs = some rest) :
    rest.length < cs.length := by
  have h₁ := length_of_literal? h
  have h₂ := length_skipSpace_le (attributes cs).2
  have h₃ := length_attributes_le cs
  simp at h₁
  omega

theorem length_of_instruction? {outside : Bool} {cs rest : List Char}
    (h : instruction? outside cs = some rest) : rest.length < cs.length := by
  unfold instruction? at h
  split at h
  · next r hr =>
    have h₁ := length_of_attributed? h
    have h₂ : r.length ≤ cs.length := by
      split at hr
      · rw [Option.orElse_eq_orElse, Option.orElse_eq_or, Option.or_eq_some_iff] at hr
        rcases hr with hr | ⟨-, hr⟩
        · have := length_of_literal? hr
          omega
        · have := length_of_literal? hr
          omega
      · simp at hr
    omega
  · simp only [Option.bind_eq_some_iff] at h
    obtain ⟨r, hr, h⟩ := h
    have h₁ := length_of_target? hr
    split at h
    · next hl =>
      cases h
      have := length_of_literal? hl
      omega
    · simp only [Option.bind_eq_some_iff] at h
      obtain ⟨r', hs, h⟩ := h
      have h₂ := length_of_space? hs
      have h₃ := length_of_instructionContent? h
      omega

theorem length_of_characterData? {c : Char} {cs rest : List Char} {t : Token}
    (hc : isMarkup c = false) (h : characterData? (c :: cs) = some (t, rest)) :
    rest.length < (c :: cs).length := by
  unfold characterData? at h
  split at h
  · next r hs =>
    simp only [Option.map_eq_some_iff, Prod.mk.injEq] at h
    obtain ⟨r', hr, -, rfl⟩ := h
    have h₁ := length_of_strayClose? hs
    have h₂ := length_of_comment? hr
    omega
  · cases h
    have := length_dropWhile_le (!isMarkup ·) cs
    simp only [List.dropWhile_cons, hc, Bool.not_false, if_true, List.length_cons]
    omega

theorem length_of_token? {cs rest : List Char} {t : Token} (h : token? cs = some (t, rest)) :
    rest.length < cs.length := by
  unfold token? at h
  split at h
  · simp at h
  · simp only [Option.map_eq_some_iff, Prod.exists, Prod.mk.injEq] at h
    obtain ⟨_, _, hr, -, rfl⟩ := h
    have := length_of_endTag? hr
    simp only [List.length_cons]
    omega
  · split at h
    · next hl =>
      simp only [Option.map_eq_some_iff, Prod.mk.injEq] at h
      obtain ⟨_, hr, -, rfl⟩ := h
      have h₁ := length_of_literal? hl
      have h₂ := length_of_commentRest? hr
      simp only [List.length_cons]
      omega
    · simp only [Option.map_eq_some_iff, Option.bind_eq_some_iff, Prod.exists, Prod.mk.injEq] at h
      obtain ⟨_, _, ⟨_, hl, hr⟩, -, rfl⟩ := h
      have h₁ := length_of_literal? hl
      have h₂ := length_of_sectionBody? hr
      simp only [List.length_cons]
      omega
  · simp only [Option.map_eq_some_iff, Prod.mk.injEq] at h
    obtain ⟨_, hr, -, rfl⟩ := h
    have := length_of_instruction? hr
    simp only [List.length_cons]
    omega
  · simp only [Option.map_eq_some_iff, Prod.exists, Prod.mk.injEq] at h
    obtain ⟨_, _, hr, -, rfl⟩ := h
    have := length_of_startTag? hr
    simp only [List.length_cons]
    omega
  · simp only [Option.map_eq_some_iff, Prod.exists, Prod.mk.injEq] at h
    obtain ⟨_, _, hr, -, rfl⟩ := h
    have := length_of_reference? hr
    simp only [List.length_cons]
    omega
  · next c cs _ _ _ hlt hamp =>
    refine length_of_characterData? ?_ h
    simp only [isMarkup, Bool.or_eq_false_iff, beq_eq_false_iff_ne]
    exact ⟨fun hc => hlt hc, fun hc => hamp hc⟩

end BehaviorIndex.Markup
