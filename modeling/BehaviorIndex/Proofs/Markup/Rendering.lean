import BehaviorIndex.Proofs.Markup.RoundTrip

/-!
# Rendered elements

All the ways to write a tree of elements with tags, attributes and character data: a start tag with
its end tag or an empty-element tag, any space that the grammar admits inside tags, either quote
around a value, and values and character data as they are, without references.

The parts of a rendering carry the proofs that they are well-formed. Each is written in front of a
text that follows it (`write`), so that what a reader leaves is the argument of `write`.

**Reading.** `startTag?`, `endTag?` and `token?` read the tags and the character data back, whatever
follows them.
-/

namespace BehaviorIndex.Markup

/-! ## The parts of a tag -/

/-- Optional space. -/
structure Space where
  chars : List Char
  spaces : ∀ c ∈ chars, isSpace c = true

/-- An attribute as it is written in a tag. -/
structure Field where
  lead : Space
  name : String
  /-- The space before the equals sign. -/
  before : Space
  /-- The space behind it. -/
  behind : Space
  quote : Char
  value : List Char
  lead_ne : lead.chars ≠ []
  isName : IsName name
  isQuote : quote = '"' ∨ quote = '\''
  plain : ∀ c ∈ value, c ≠ '<' ∧ c ≠ '&' ∧ c ≠ quote

/-- The field without the space before it. -/
def Field.writeName (f : Field) (rest : List Char) : List Char :=
  f.name.toList ++ (f.before.chars ++
    '=' :: (f.behind.chars ++ f.quote :: (f.value ++ f.quote :: rest)))

def Field.write (f : Field) (rest : List Char) : List Char := f.lead.chars ++ f.writeName rest

def Field.attribute (f : Field) : String × String := (f.name, String.ofList f.value)

/-- What stands between the brackets of a start tag, a final slash apart. -/
structure Opening where
  tag : String
  fields : List Field
  trail : Space
  isTagName : IsTagName tag

namespace Opening

/-- What follows the name. -/
def writeFields (o : Opening) (rest : List Char) : List Char :=
  o.fields.foldr Field.write (o.trail.chars ++ rest)

def write (o : Opening) (rest : List Char) : List Char := o.tag.toList ++ o.writeFields rest

def attributes (o : Opening) : Attributes := o.fields.map Field.attribute

end Opening

/-- A run of character data, maybe empty. -/
structure Data where
  chars : List Char
  plain : ∀ c ∈ chars, c ≠ '<' ∧ c ≠ '&' ∧ c ≠ ']'

/-! ## Renderings -/

mutual

/-- An element as it is written: with an empty-element tag, or with its content between two tags,
where `trail` is the space in the end tag. -/
inductive Rendering where
  | empty (o : Opening)
  | paired (o : Opening) (content : Content) (trail : Space)

/-- The content of an element: character data, with elements between. -/
inductive Content where
  | last (data : Data)
  | more (data : Data) (inner : Rendering) (rest : Content)

end

/-- The end tag from behind its `<`. -/
def Opening.writeEnd (o : Opening) (trail : Space) (rest : List Char) : List Char :=
  '/' :: (o.tag.toList ++ (trail.chars ++ '>' :: rest))

mutual

def Rendering.write : Rendering → List Char → List Char
  | .empty o, rest => '<' :: o.write ('/' :: '>' :: rest)
  | .paired o content trail, rest =>
    '<' :: o.write ('>' :: content.write ('<' :: o.writeEnd trail rest))

def Content.write : Content → List Char → List Char
  | .last d, rest => d.chars ++ rest
  | .more d inner content, rest => d.chars ++ inner.write (content.write rest)

end

/-- The items that character data stands for: none if it is empty. -/
def Data.items (d : Data) : List Item :=
  if d.chars = [] then [] else [.text (String.ofList d.chars)]

mutual

/-- The element that is rendered. -/
def Rendering.element : Rendering → Element
  | .empty o => .mk o.tag o.attributes [] none
  | .paired o content _ => .mk o.tag o.attributes content.items none

def Content.items : Content → List Item
  | .last d => d.items
  | .more d inner content => d.items ++ .element inner.element :: content.items

end

/-- A rendered element as a document, with space around it. -/
structure Sheet where
  lead : Space
  root : Rendering
  trail : Space

def Sheet.write (s : Sheet) : List Char := s.lead.chars ++ s.root.write s.trail.chars

def Sheet.text (s : Sheet) : String := String.ofList s.write

/-! ## Reading tags -/

theorem skipSpace_append (s : Space) {rest : List Char} (h : Stops isSpace rest) :
    skipSpace (s.chars ++ rest) = rest :=
  dropWhile_append_of_stops s.spaces h

theorem space?_append {s : Space} (hne : s.chars ≠ []) {rest : List Char}
    (h : Stops isSpace rest) : space? (s.chars ++ rest) = some rest := by
  obtain ⟨c, cs, hcs⟩ := List.exists_cons_of_ne_nil hne
  have hspace := List.forall_mem_cons.mp (hcs ▸ s.spaces)
  rw [hcs, List.cons_append, space?, if_pos hspace.1, skipSpace]
  exact congrArg some (dropWhile_append_of_stops hspace.2 h)

theorem Space.stops_isNameChar (s : Space) {rest : List Char} (h : Stops isNameChar rest) :
    Stops isNameChar (s.chars ++ rest) := by
  cases hs : s.chars with
  | nil => exact h
  | cons c cs =>
    have hc : isSpace c = true := s.spaces c (hs ▸ List.mem_cons_self)
    refine stops_cons ?_
    rw [← Bool.not_eq_true]
    intro hname
    rw [not_isSpace_of_isNameChar hname] at hc
    cases hc

namespace Field

variable (f : Field) (rest : List Char)

theorem stops_writeName : Stops isSpace (f.writeName rest) := by
  obtain ⟨c, cs, hname, hc, -⟩ := f.isName
  rw [writeName, hname]
  exact stops_cons (not_isSpace_of_isNameChar (isNameChar_of_isNameStart hc))

theorem quoted?_value :
    quoted? (· == '<') (f.quote :: (f.value ++ f.quote :: rest)) = some (f.value, rest) := by
  have hrun : ∀ c ∈ f.value, (c != f.quote) = true := fun c hc => by
    simpa using (f.plain c hc).2.2
  have hstop : Stops (· != f.quote) (f.quote :: rest) := stops_cons (by simp)
  have hforbidden : f.value.any (· == '<') = false := by
    rw [List.any_eq_false]
    intro c hc
    simpa using (f.plain c hc).1
  have hreferences : wellReferenced f.value = true := by
    have happend := @wellReferenced_append f.value [] fun c hc => (f.plain c hc).2.1
    rwa [List.append_nil] at happend
  have hquote : (f.quote == '"' || f.quote == '\'') = true := by simpa using f.isQuote
  rw [quoted?, if_pos hquote, dropWhile_append_of_stops hrun hstop,
    takeWhile_append_of_stops hrun hstop]
  simp [hforbidden, hreferences]

theorem attribute?_writeName : attribute? (f.writeName rest) = some (f.attribute, rest) := by
  have hequals : skipSpace (f.before.chars ++ '=' :: (f.behind.chars ++
      f.quote :: (f.value ++ f.quote :: rest))) =
      '=' :: (f.behind.chars ++ f.quote :: (f.value ++ f.quote :: rest)) :=
    skipSpace_append _ (stops_cons (by decide))
  have hquote : isSpace f.quote = false := by
    rcases f.isQuote with h | h <;> rw [h] <;> decide
  have hvalue : skipSpace (f.behind.chars ++ f.quote :: (f.value ++ f.quote :: rest)) =
      f.quote :: (f.value ++ f.quote :: rest) :=
    skipSpace_append _ (stops_cons hquote)
  have hdecode : decode f.value = f.value :=
    decode_of_notMem fun hmem => (f.plain _ hmem).2.1 rfl
  rw [attribute?, writeName,
    name?_append f.isName (f.before.stops_isNameChar (stops_cons (by decide)))]
  simp only [hequals, hvalue, quoted?_value, Option.map_some, hdecode, String.ofList_toList]
  rfl

end Field

/-- What ends a start tag: a bracket, maybe after a slash. -/
def EndsTag (c : Char) : Prop := c = '>' ∨ c = '/'

namespace Opening

variable (o : Opening) {c : Char} (hc : EndsTag c) (rest : List Char)

include hc

theorem attributes_writeFields :
    Markup.attributes (o.writeFields (c :: rest)) =
      (o.attributes, o.trail.chars ++ c :: rest) := by
  have hspace : isSpace c = false := by rcases hc with rfl | rfl <;> decide
  have hname : attribute? (c :: rest) = none := by rcases hc with rfl | rfl <;> rfl
  rw [writeFields, Opening.attributes]
  induction o.fields with
  | nil =>
    rw [List.foldr_nil, List.map_nil]
    by_cases htrail : o.trail.chars = []
    · rw [htrail]
      refine attributes_of_space?_eq_none ?_
      rw [List.nil_append, space?, if_neg (by simp [hspace])]
    · exact attributes_of_attribute?_eq_none (space?_append htrail (stops_cons hspace)) hname
  | cons f fields ih =>
    rw [List.foldr_cons, Field.write]
    rw [attributes_of_attribute? (space?_append f.lead_ne (f.stops_writeName _))
      (f.attribute?_writeName _), ih, List.map_cons]

theorem stops_writeFields : Stops isNameChar (o.writeFields (c :: rest)) := by
  have hname : isNameChar c = false := by rcases hc with rfl | rfl <;> decide
  rw [writeFields]
  cases o.fields with
  | nil => exact o.trail.stops_isNameChar (stops_cons hname)
  | cons f fields =>
    rw [List.foldr_cons, Field.write]
    obtain ⟨d, ds, hds⟩ := List.exists_cons_of_ne_nil f.lead_ne
    have hnil : Stops isNameChar [] := by simp [Stops]
    have hlead := f.lead.stops_isNameChar hnil
    rw [hds, List.append_nil] at hlead
    rw [hds]
    exact stops_cons (hlead d rfl)

theorem tagName?_write :
    tagName? (o.write (c :: rest)) = some (o.tag.toList, o.writeFields (c :: rest)) :=
  tagName?_append o.isTagName (o.stops_writeFields hc rest)

theorem skipSpace_trail : skipSpace (o.trail.chars ++ c :: rest) = c :: rest := by
  refine skipSpace_append _ (stops_cons ?_)
  rcases hc with rfl | rfl <;> decide

end Opening

namespace Opening

variable (o : Opening) (rest : List Char)

theorem startTag?_write_paired :
    startTag? (o.write ('>' :: rest)) = some (⟨o.tag.toList, o.attributes, false⟩, rest) := by
  have hend : EndsTag '>' := .inl rfl
  rw [startTag?, o.tagName?_write hend]
  simp only [o.attributes_writeFields hend, o.skipSpace_trail hend]

theorem startTag?_write_empty :
    startTag? (o.write ('/' :: '>' :: rest)) =
      some (⟨o.tag.toList, o.attributes, true⟩, rest) := by
  have hend : EndsTag '/' := .inr rfl
  rw [startTag?, o.tagName?_write hend]
  simp only [o.attributes_writeFields hend, o.skipSpace_trail hend]

/-- A start tag begins with a character of a name. -/
theorem exists_write_eq : ∃ c cs, isNameChar c = true ∧ o.write rest = c :: cs := by
  obtain ⟨c, cs, hcs⟩ := List.exists_cons_of_ne_nil o.isTagName.nonempty
  refine ⟨c, cs ++ o.writeFields rest, o.isTagName.chars c (hcs ▸ List.mem_cons_self), ?_⟩
  rw [write, hcs, List.cons_append]

theorem token?_write {t : StartTag} {behind : List Char}
    (h : startTag? (o.write rest) = some (t, behind)) :
    token? ('<' :: o.write rest) = some (.start t, behind) := by
  obtain ⟨c, cs, hc, hwrite⟩ := o.exists_write_eq rest
  rw [token?, h]
  · rfl
  all_goals
    rw [hwrite]
    rintro _ ⟨⟩
    exact absurd hc (by decide)

theorem token?_writeEnd (trail : Space) :
    token? ('<' :: o.writeEnd trail rest) = some (.close o.tag.toList, rest) := by
  have hstop : Stops isNameChar (trail.chars ++ '>' :: rest) :=
    trail.stops_isNameChar (stops_cons (by decide))
  have hend : endTag? (o.tag.toList ++ (trail.chars ++ '>' :: rest)) =
      some (o.tag.toList, rest) := by
    rw [endTag?, tagName?_append o.isTagName hstop]
    simp only [skipSpace_append trail (stops_cons (by decide : isSpace '>' = false))]
  rw [writeEnd, token?, hend]
  rfl

end Opening

/-- A run without brackets holds no stray close. -/
theorem strayClose?_of_notMem {cs : List Char} (begun : Bool)
    (h : ']' ∉ cs.takeWhile (!isMarkup ·)) : strayClose? begun cs = none := by
  fun_induction strayClose? begun cs with
  | case1 => rfl
  | case2 | case3 | case4 | case5 => exact absurd (by simp [List.takeWhile, isMarkup]) h
  | case6 => rfl
  | case7 _ c cs _ _ _ hc ih =>
    rw [List.takeWhile_cons_of_pos (by simpa using hc)] at h
    exact ih fun hm => h (List.mem_cons_of_mem _ hm)

/-- Character data up to a tag is one text. -/
theorem Data.token?_append {d : Data} (hne : d.chars ≠ []) (rest : List Char) :
    token? (d.chars ++ '<' :: rest) = some (.text d.chars, '<' :: rest) := by
  have hrun : ∀ c ∈ d.chars, (!isMarkup c) = true := fun c hc => by
    obtain ⟨hlt, hamp, -⟩ := d.plain c hc
    simp [isMarkup, hlt, hamp]
  have hstop : Stops (!isMarkup ·) ('<' :: rest) := stops_cons rfl
  have htake := takeWhile_append_of_stops hrun hstop
  have hdrop := dropWhile_append_of_stops hrun hstop
  have hstray : strayClose? false (d.chars ++ '<' :: rest) = none := by
    refine strayClose?_of_notMem false ?_
    rw [htake]
    exact fun hm => (d.plain _ hm).2.2 rfl
  obtain ⟨c, cs, hcs⟩ := List.exists_cons_of_ne_nil hne
  obtain ⟨hlt, hamp, -⟩ := d.plain c (hcs ▸ List.mem_cons_self)
  rw [hcs] at hstray htake hdrop ⊢
  rw [List.cons_append] at hstray htake hdrop ⊢
  have htoken : token? (c :: (cs ++ '<' :: rest)) = characterData? (c :: (cs ++ '<' :: rest)) := by
    rw [token?] <;> simp [hamp, hlt]
  rw [htoken, characterData?, hstray, htake, hdrop]

end BehaviorIndex.Markup
