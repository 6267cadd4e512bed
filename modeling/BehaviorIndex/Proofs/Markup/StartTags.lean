import BehaviorIndex.Proofs.Markup.Prolog
import BehaviorIndex.Proofs.Markup.Reader
import BehaviorIndex.Proofs.Markup.Remainder

/-!
# The start tags of a document

A *plain* text has no comments, sections, document type or instructions. In a plain document every
`<` begins a start tag or an end tag, apart from the one that begins the declaration of the version
(`Regular`), and the start tags in the text are those of the elements, in document order.

**Theorem (`readRoot?_openings`).** For a plain document, reading off the start tags from the text
gives the tags and attributes of its elements in document order.
-/

namespace BehaviorIndex.Markup

open Text

/-! ## In a text -/

/-- The start tags in a text that begins at `offset`, each with the offset of its `<`. -/
def startTags (offset : Nat) : List Char → List (Nat × StartTag)
  | [] => []
  | c :: cs =>
    match c == '<', startTag? cs with
    | true, some (t, _) => (offset, t) :: startTags (offset + c.utf8Size) cs
    | _, _ => startTags (offset + c.utf8Size) cs

/-- Every `<` before a name begins a start tag. -/
def Regular : List Char → Prop
  | [] => True
  | c :: cs => (c = '<' → (startTag? cs).isSome ∨ Stops isNameChar cs) ∧ Regular cs

/-- What a start tag says of its element. -/
def StartTag.opening (t : StartTag) : String × Attributes := (String.ofList t.tag, t.attributes)

/-- What the start tags in a text say. -/
def openingsIn (cs : List Char) : List (String × Attributes) :=
  (startTags 0 cs).map fun (_, t) => t.opening

section

variable {c : Char} {cs behind rest passage : List Char} {t : StartTag}

theorem startTag?_eq_none (h : Stops isNameChar cs) : startTag? cs = none := by
  cases cs with
  | nil => rfl
  | cons c cs => simp [startTag?, tagName?, h c rfl]

theorem startTags_cons_of_ne (hc : c ≠ '<') (offset : Nat) :
    startTags offset (c :: cs) = startTags (offset + c.utf8Size) cs := by
  rw [startTags, beq_false_of_ne hc]

theorem startTags_of_startTag? (h : startTag? cs = some (t, rest)) (offset : Nat) :
    startTags offset ('<' :: cs) = (offset, t) :: startTags (offset + 1) cs := by
  rw [startTags, h]
  rfl

theorem startTags_of_stops (h : Stops isNameChar cs) (offset : Nat) :
    startTags offset ('<' :: cs) = startTags (offset + 1) cs := by
  rw [startTags, startTag?_eq_none h]
  rfl

theorem startTags_append (hpassage : '<' ∉ passage) (offset : Nat) :
    startTags offset (passage ++ rest) = startTags (offset + byteSize passage) rest := by
  induction passage generalizing offset with
  | nil => rfl
  | cons c passage ih =>
    obtain ⟨hc, hpassage⟩ := List.ne_and_not_mem_of_not_mem_cons hpassage
    rw [List.cons_append, startTags_cons_of_ne hc.symm, ih hpassage, byteSize, Nat.add_assoc]

theorem openingsIn_eq (offset : Nat) :
    openingsIn cs = (startTags offset cs).map fun (_, t) => t.opening := by
  have hshift : ∀ (a b : Nat), (startTags a cs).map (·.2.opening) =
      (startTags b cs).map (·.2.opening) := by
    induction cs with
    | nil => exact fun _ _ => rfl
    | cons c cs ih =>
      intro a b
      rw [startTags, startTags]
      split
      · exact congrArg (List.cons _) (ih _ _)
      · exact ih _ _
  exact hshift 0 offset

theorem openingsIn_of_startTag? (h : startTag? cs = some (t, rest)) :
    openingsIn ('<' :: cs) = t.opening :: openingsIn rest := by
  obtain ⟨passage, rfl, hpassage⟩ := passes_of_startTag? h
  rw [openingsIn, startTags_of_startTag? h, startTags_append hpassage, List.map_cons,
    ← openingsIn_eq]

theorem openingsIn_of_stops (h : Stops isNameChar cs) : openingsIn ('<' :: cs) = openingsIn cs := by
  rw [openingsIn, startTags_of_stops h, ← openingsIn_eq]

theorem openingsIn_of_passes (h : Passes cs rest) : openingsIn cs = openingsIn rest := by
  obtain ⟨passage, rfl, hpassage⟩ := h
  rw [openingsIn, startTags_append hpassage, ← openingsIn_eq]

theorem regular_of_passes (h : Passes cs rest) (hrest : Regular rest) : Regular cs := by
  obtain ⟨passage, rfl, hpassage⟩ := h
  induction passage with
  | nil => exact hrest
  | cons c passage ih =>
    obtain ⟨hc, hpassage⟩ := List.ne_and_not_mem_of_not_mem_cons hpassage
    exact ⟨fun h => absurd h.symm hc, ih hpassage⟩

theorem Regular.of_suffix (h : Regular cs) (hrest : rest <:+ cs) : Regular rest := by
  obtain ⟨passage, rfl⟩ := hrest
  induction passage with
  | nil => exact h
  | cons c passage ih => exact ih h.2

theorem regular_of_startTag? (h : startTag? cs = some (t, rest)) (hrest : Regular rest) :
    Regular ('<' :: cs) :=
  ⟨fun _ => .inl (by simp [h]), regular_of_passes (passes_of_startTag? h) hrest⟩

theorem regular_of_stops (h : Stops isNameChar cs) (hcs : Regular cs) : Regular ('<' :: cs) :=
  ⟨fun _ => .inr h, hcs⟩

end

/-! ## In an element -/

mutual

/-- The tags and attributes of an element and of all elements inside it, in document order. -/
def Element.openings : Element → List (String × Attributes)
  | .mk tag as items _ => (tag, as) :: openingsOfItems items

def openingsOfItems : List Item → List (String × Attributes)
  | [] => []
  | .text _ :: is => openingsOfItems is
  | .element e :: is => e.openings ++ openingsOfItems is

end

theorem openingsOfItems_append (items more : List Item) :
    openingsOfItems (items ++ more) = openingsOfItems items ++ openingsOfItems more := by
  induction items with
  | nil => rfl
  | cons item items ih => cases item <;> simp [openingsOfItems, ih]

/-- What was read of an open element. -/
def Frame.openings (f : Frame) : List (String × Attributes) :=
  (String.ofList f.tag, f.attributes) :: openingsOfItems f.items.reverse

/-- What was read of all open elements. -/
def openingsOfFrames (top : Frame) (outer : List Frame) : List (String × Attributes) :=
  (outer.reverse.flatMap Frame.openings) ++ top.openings

theorem openingsOfFrames_nil (top : Frame) : openingsOfFrames top [] = top.openings := rfl

theorem openingsOfFrames_cons (top f : Frame) (outer : List Frame) :
    openingsOfFrames top (f :: outer) = openingsOfFrames f outer ++ top.openings := by
  simp [openingsOfFrames]

theorem openingsOfFrames_add_text (top : Frame) (outer : List Frame) (s : String) :
    openingsOfFrames (top.add (.text s)) outer = openingsOfFrames top outer := by
  simp [openingsOfFrames, Frame.openings, Frame.add, openingsOfItems_append, openingsOfItems]

theorem openingsOfFrames_add_element (top : Frame) (outer : List Frame) (e : Element) :
    openingsOfFrames (top.add (.element e)) outer = openingsOfFrames top outer ++ e.openings := by
  simp [openingsOfFrames, Frame.openings, Frame.add, openingsOfItems_append, openingsOfItems]

theorem Frame.openings_ofStart (used : Nat) (t : StartTag) :
    (Frame.ofStart used t).openings = [t.opening] := rfl

theorem Frame.openings_toElement (f : Frame) (stray : Option StrayEnd) :
    (f.toElement stray).openings = f.openings := by
  rw [Frame.toElement, Element.openings, Frame.openings]

theorem StartTag.openings_toElement (t : StartTag) : t.toElement.openings = [t.opening] := by
  rw [StartTag.toElement, Element.openings, openingsOfItems, StartTag.opening]

/-! ## Plain texts -/

/-- No comment, no section, no document type, no instruction begins in the text. -/
structure Plain (cs : List Char) : Prop where
  noBang : ¬ ['<', '!'] <:+: cs
  noQuestion : ¬ ['<', '?'] <:+: cs

theorem Plain.of_suffix {cs rest : List Char} (h : Plain cs) (hrest : rest <:+ cs) : Plain rest :=
  ⟨fun hi => h.noBang (hi.trans hrest.isInfix), fun hi => h.noQuestion (hi.trans hrest.isInfix)⟩

theorem isPrefix_of_literal? {word : String} {cs rest : List Char}
    (h : literal? word cs = some rest) : word.toList <+: cs :=
  ⟨rest, (afterPrefix?_eq_some_iff.mp h).symm⟩

theorem Plain.comment?_eq_none {cs rest : List Char} (h : Plain cs) (hrest : rest <:+ cs) :
    comment? rest = none := by
  cases hc : comment? rest with
  | none => rfl
  | some behind =>
    obtain ⟨_, hopen, -⟩ := Option.bind_eq_some_iff.mp hc
    have hbang : ['<', '!'] <+: "<!--".toList := by decide
    have := (hbang.trans (isPrefix_of_literal? hopen)).isInfix
    exact absurd (this.trans hrest.isInfix) h.noBang

/-- The tokens of a plain text are start tags, end tags and texts. -/
theorem token?_cases {cs rest : List Char} {token : Token} (hplain : Plain cs)
    (h : token? cs = some (token, rest)) :
    (∃ t behind, token = .start t ∧ cs = '<' :: behind ∧ startTag? behind = some (t, rest)) ∨
    (∃ name behind, token = .close name ∧ cs = '<' :: '/' :: behind ∧ Passes behind rest) ∨
    ∃ text, token = .text text ∧ Passes cs rest := by
  unfold token? at h
  split at h
  · cases h
  · next behind =>
    obtain ⟨⟨name, rest'⟩, hend, h⟩ := Option.map_eq_some_iff.mp h
    cases h
    exact .inr (.inl ⟨name, behind, rfl, rfl, passes_of_endTag? hend⟩)
  · next behind => exact absurd ⟨[], behind, rfl⟩ hplain.noBang
  · next behind => exact absurd ⟨[], behind, rfl⟩ hplain.noQuestion
  · next behind _ _ _ =>
    obtain ⟨⟨t, rest'⟩, hstart, h⟩ := Option.map_eq_some_iff.mp h
    cases h
    exact .inl ⟨t, behind, rfl, rfl, hstart⟩
  · next behind =>
    obtain ⟨⟨body, rest'⟩, hbody, h⟩ := Option.map_eq_some_iff.mp h
    cases h
    exact .inr (.inr ⟨_, rfl, .cons (by decide) (passes_of_reference? hbody)⟩)
  · rw [characterData?] at h
    split at h
    · next behind hstray =>
      -- A refused run counts only together with a comment.
      rw [hplain.comment?_eq_none (suffix_of_strayClose? hstray)] at h
      cases h
    · cases h
      exact .inr (.inr ⟨_, rfl, passes_dropWhile (by decide) _⟩)

/-! ## Reading a plain text -/

/-- The element `root` is read to its end, from `cs` on to `rest`, after the start tags `front`. -/
structure ReadOn (front : List (String × Attributes)) (cs : List Char) (root : Element)
    (rest : List Char) : Prop where
  suffix : rest <:+ cs
  regular : Regular rest → Regular cs
  openings : root.openings ++ openingsIn rest = front ++ openingsIn cs

section

variable {front front' : List (String × Attributes)} {cs behind mid rest : List Char}
  {root : Element}

theorem ReadOn.of_passes (hpasses : Passes cs mid) (h : ReadOn front mid root rest) :
    ReadOn front cs root rest where
  suffix := h.suffix.trans hpasses.suffix
  regular hrest := regular_of_passes hpasses (h.regular hrest)
  openings := by rw [h.openings, openingsIn_of_passes hpasses]

theorem ReadOn.of_stops (hstops : Stops isNameChar cs) (h : ReadOn front cs root rest) :
    ReadOn front ('<' :: cs) root rest where
  suffix := h.suffix.trans (List.suffix_cons _ _)
  regular hrest := regular_of_stops hstops (h.regular hrest)
  openings := by rw [h.openings, openingsIn_of_stops hstops]

theorem ReadOn.of_startTag? {t : StartTag} (hstart : startTag? cs = some (t, mid))
    (h : ReadOn (front ++ [t.opening]) mid root rest) : ReadOn front ('<' :: cs) root rest where
  suffix := h.suffix.trans ((passes_of_startTag? hstart).suffix.trans (List.suffix_cons _ _))
  regular hrest := regular_of_startTag? hstart (h.regular hrest)
  openings := by rw [h.openings, openingsIn_of_startTag? hstart, List.append_assoc]; rfl

theorem ReadOn.done (root : Element) (rest : List Char) :
    ReadOn root.openings rest root rest where
  suffix := List.suffix_rfl
  regular := id
  openings := rfl

end

/-- **Reading content.** The start tags that are read from inside the open elements are those of the
elements that are read. -/
theorem readContent?_readOn {lineEnds : Nat} {top : Frame} {outer : List Frame}
    {cs rest : List Char} {root : Element} (hplain : Plain cs)
    (h : readContent? lineEnds top outer cs = some (root, rest)) :
    ReadOn (openingsOfFrames top outer) cs root rest := by
  cases htoken : token? cs with
  | none =>
    rw [readContent?_eq_none htoken] at h
    cases h
  | some read =>
    obtain ⟨token, mid⟩ := read
    have hshorter := length_of_token? htoken
    rcases token?_cases hplain htoken with
      ⟨t, behind, rfl, rfl, hstart⟩ | ⟨name, behind, rfl, rfl, hpasses⟩ | ⟨text, rfl, hpasses⟩
    · -- A start tag opens an element, or is one.
      have hmid : Plain mid :=
        hplain.of_suffix ((passes_of_startTag? hstart).suffix.trans (List.suffix_cons _ _))
      rw [readContent?_start htoken] at h
      refine .of_startTag? hstart ?_
      split at h
      · have := readContent?_readOn hmid h
        rwa [openingsOfFrames_add_element, StartTag.openings_toElement] at this
      · have := readContent?_readOn hmid h
        rwa [openingsOfFrames_cons, Frame.openings_ofStart] at this
    · -- An end tag closes the innermost element, which becomes an item of the next one.
      have hmid : Plain mid := hplain.of_suffix
        (hpasses.suffix.trans ((List.suffix_cons _ _).trans (List.suffix_cons _ _)))
      rw [readContent?_close htoken] at h
      refine .of_stops (stops_cons (by decide)) (.of_passes (.cons (by decide) hpasses) ?_)
      split at h
      · cases outer with
        | nil =>
          cases h
          rw [openingsOfFrames_nil, ← Frame.openings_toElement]
          exact .done _ _
        | cons f outer =>
          have := readContent?_readOn hmid h
          rwa [openingsOfFrames_add_element, Frame.openings_toElement,
            ← openingsOfFrames_cons] at this
      · cases h
    · rw [readContent?_text htoken] at h
      refine .of_passes hpasses ?_
      have := readContent?_readOn (hplain.of_suffix hpasses.suffix) h
      rwa [openingsOfFrames_add_text] at this
termination_by cs.length

/-! ## Documents -/

/-- What follows the declaration of the version, if there is one. -/
def afterDeclaration (cs : List Char) : List Char :=
  let cs := skipSpace (skipMark cs)
  (declaration? cs).getD cs

theorem Plain.aside?_eq_none {cs rest : List Char} (h : Plain cs) (hrest : rest <:+ cs) :
    aside? rest = none := by
  have hquestion : literal? "<?" rest = none := by
    cases hq : literal? "<?" rest with
    | none => rfl
    | some behind =>
      exact absurd ((isPrefix_of_literal? hq).isInfix.trans hrest.isInfix) h.noQuestion
  rw [aside?, h.comment?_eq_none hrest, hquestion]
  rfl

theorem Plain.doctype?_eq_none {cs rest : List Char} (h : Plain cs) (hrest : rest <:+ cs) :
    doctype? rest = none := by
  cases hd : doctype? rest with
  | none => rfl
  | some behind =>
    simp only [doctype?, Option.bind_eq_bind, Option.bind_eq_some_iff] at hd
    obtain ⟨_, hopen, -⟩ := hd
    have hbang : ['<', '!'] <+: "<!DOCTYPE".toList := by decide
    have := (hbang.trans (isPrefix_of_literal? hopen)).isInfix
    exact absurd (this.trans hrest.isInfix) h.noBang

theorem Plain.skipAsides_eq {cs : List Char} (h : Plain cs) : skipAsides cs = skipSpace cs :=
  skipAsides_of_aside?_eq_none (h.aside?_eq_none (passes_skipSpace cs).suffix)

theorem Plain.skipProlog_eq {cs : List Char} (h : Plain (afterDeclaration cs)) :
    skipProlog (skipMark cs) = skipSpace (afterDeclaration cs) := by
  have hasides := h.skipAsides_eq
  have hdoctype := h.doctype?_eq_none (passes_skipSpace _).suffix
  simp only [afterDeclaration] at hasides hdoctype ⊢
  simp only [skipProlog, hasides, hdoctype]

theorem passes_skipMark (cs : List Char) : Passes cs (skipMark cs) := by
  cases cs with
  | nil => exact .refl []
  | cons c cs =>
    rw [skipMark]
    split
    · next hc =>
      refine .cons ?_ (.refl cs)
      rintro rfl
      exact absurd hc (by decide)
    · exact .refl _

/-- No start tag stands before the end of the declaration. -/
theorem ReadOn.of_afterDeclaration {front : List (String × Attributes)} {cs rest : List Char}
    {root : Element} (h : ReadOn front (afterDeclaration cs) root rest) :
    ReadOn front cs root rest := by
  refine .of_passes ((passes_skipMark cs).trans (passes_skipSpace _)) ?_
  rw [afterDeclaration] at h
  cases hd : declaration? (skipSpace (skipMark cs)) with
  | none => simpa [hd] using h
  | some body =>
    obtain ⟨behind, hcs, hpasses⟩ := passes_of_declaration? hd
    simp only [hd, Option.getD_some] at h
    rw [hcs]
    exact .of_stops (stops_cons (by decide)) (.of_passes (.cons (by decide) hpasses) h)

theorem element?_readOn {lineEnds : Nat} {cs rest : List Char} {root : Element} (hplain : Plain cs)
    (h : element? lineEnds cs = some (root, rest)) : ReadOn [] cs root rest := by
  unfold element? at h
  split at h
  · next cs =>
    split at h
    · cases h
    · next t mid hstart =>
      refine .of_startTag? hstart ?_
      split at h
      · cases h
        rw [List.nil_append, ← StartTag.openings_toElement]
        exact .done _ _
      · have hmid : Plain mid :=
          hplain.of_suffix ((passes_of_startTag? hstart).suffix.trans (List.suffix_cons _ _))
        exact readContent?_readOn hmid h
  · cases h

/-- **The start tags of a plain document.** Every `<` before a name begins a start tag, and the
start tags in the text are those of the elements, in document order. -/
theorem readRoot?_openings {cs : List Char} {root : Element} (hplain : Plain (afterDeclaration cs))
    (h : readRoot? cs = some root) : Regular cs ∧ openingsIn cs = root.openings := by
  rw [readRoot?, hplain.skipProlog_eq] at h
  split at h
  · next root' rest hread =>
    split at h
    · next hrest =>
      cases h
      have hstart := (passes_skipSpace (afterDeclaration cs)).suffix
      have hbody := element?_readOn (hplain.of_suffix hstart) hread
      have hall := (hbody.of_passes (passes_skipSpace _)).of_afterDeclaration
      have hpasses : Passes rest [] := by
        rw [(hplain.of_suffix (hbody.suffix.trans hstart)).skipAsides_eq,
          List.isEmpty_iff] at hrest
        exact hrest ▸ passes_skipSpace rest
      refine ⟨hall.regular (regular_of_passes hpasses trivial), ?_⟩
      have := hall.openings
      rw [openingsIn_of_passes hpasses] at this
      simpa [openingsIn, startTags] using this.symm
    · cases h
  · cases h

end BehaviorIndex.Markup
