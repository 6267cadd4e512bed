import BehaviorIndex.Proofs.Markup.Rendering

/-!
# Which rendered documents are too deep

A document that is nested too deeply can be refused in two places. If the grammar accepts it, its
root has a fault. If the grammar gives up, because the names of the open elements do not fit the
memory for them, then the tags are counted by eye. The two do not count alike: by eye, an
empty-element tag is not a level of its own.

**Theorem (`reports_nesting`).** For every rendered document (`Sheet`),

* it is refused as too deep exactly if some element lies below the deepest level and, moreover, the
  names fit the memory or some element with an end tag lies below that level;
* so it is always refused as too deep when it goes two levels or more too far;
* in the remaining case it is refused as malformed.

The case remains: `parse_column` is a document with an empty element one level too deep that is
refused as malformed, while the same element with an end tag would make it too deep.

Both halves are equations about `Rendering.write`, by induction on the rendering:
`nestsBeyond_write` for the count by eye, and `readContent?_write` for the reader, where
`Rendering.fits` tells whether the names fit.
-/

namespace BehaviorIndex.Markup

/-! ## Heights -/

mutual

/-- The number of levels. -/
def Rendering.height : Rendering → Nat
  | .empty _ => 1
  | .paired _ content _ => content.height + 1

def Content.height : Content → Nat
  | .last _ => 0
  | .more _ inner content => max inner.height content.height

end

mutual

/-- The number of levels that have an end tag. -/
def Rendering.pairedHeight : Rendering → Nat
  | .empty _ => 0
  | .paired _ content _ => content.pairedHeight + 1

def Content.pairedHeight : Content → Nat
  | .last _ => 0
  | .more _ inner content => max inner.pairedHeight content.pairedHeight

end

mutual

/-- The names of all open elements fit the memory, of which `used` bytes are taken. -/
def Rendering.fits (used : Nat) : Rendering → Bool
  | .empty _ => true
  | .paired o content _ =>
    o.tag.toList.length ≤ longest && used + 2 + o.tag.toList.length < capacity &&
      content.fits (used + 1 + o.tag.toList.length)

def Content.fits (used : Nat) : Content → Bool
  | .last _ => true
  | .more _ inner content => inner.fits used && content.fits used

end

mutual

theorem Rendering.pairedHeight_le (r : Rendering) : r.pairedHeight ≤ r.height := by
  match r with
  | .empty o => exact Nat.zero_le _
  | .paired o content trail =>
    rw [Rendering.pairedHeight, Rendering.height]
    exact Nat.succ_le_succ content.pairedHeight_le

theorem Content.pairedHeight_le (c : Content) : c.pairedHeight ≤ c.height := by
  match c with
  | .last d => exact Nat.le_refl 0
  | .more d inner content =>
    have hinner := inner.pairedHeight_le
    have hcontent := content.pairedHeight_le
    rw [Content.pairedHeight, Content.height]
    omega

end

mutual

/-- Only the innermost level can do without an end tag. -/
theorem Rendering.height_le (r : Rendering) : r.height ≤ r.pairedHeight + 1 := by
  match r with
  | .empty o => exact Nat.le_refl 1
  | .paired o content trail =>
    rw [Rendering.pairedHeight, Rendering.height]
    exact Nat.succ_le_succ content.height_le

theorem Content.height_le (c : Content) : c.height ≤ c.pairedHeight + 1 := by
  match c with
  | .last d => exact Nat.zero_le 1
  | .more d inner content =>
    have hinner := inner.height_le
    have hcontent := content.height_le
    rw [Content.pairedHeight, Content.height]
    omega

end

/-! ## The count by eye -/

theorem splitTag_append {run : List Char} (h : ∀ c ∈ run, c ≠ '>' ∧ c ≠ '"' ∧ c ≠ '\'')
    (rest : List Char) :
    splitTag none (run ++ rest) = (run ++ (splitTag none rest).1, (splitTag none rest).2) := by
  induction run with
  | nil => rfl
  | cons c run ih =>
    obtain ⟨⟨hclose, hdouble, hsingle⟩, hrun⟩ := List.forall_mem_cons.mp h
    have hquote : (c == '"' || c == '\'') = false := by simp [hdouble, hsingle]
    rw [List.cons_append, splitTag]
    simp only [beq_eq_false_iff_ne.mpr hclose, hquote, Bool.false_eq_true, if_false, ih hrun]
    rfl

theorem splitTag_quoted {q : Char} {value : List Char} (h : ∀ c ∈ value, c ≠ q)
    (rest : List Char) :
    splitTag (some q) (value ++ q :: rest) =
      (value ++ q :: (splitTag none rest).1, (splitTag none rest).2) := by
  induction value with
  | nil => simp [splitTag]
  | cons c value ih =>
    obtain ⟨hc, hvalue⟩ := List.forall_mem_cons.mp h
    rw [List.cons_append, splitTag]
    simp only [beq_eq_false_iff_ne.mpr hc, Bool.false_eq_true, if_false, ih hvalue]
    rfl

theorem ne_of_isNameChar {c : Char} (h : isNameChar c = true) : c ≠ '>' ∧ c ≠ '"' ∧ c ≠ '\'' := by
  refine ⟨?_, ?_, ?_⟩ <;> rintro rfl <;> exact absurd h (by decide)

theorem ne_of_isSpace {c : Char} (h : isSpace c = true) : c ≠ '>' ∧ c ≠ '"' ∧ c ≠ '\'' := by
  refine ⟨?_, ?_, ?_⟩ <;> rintro rfl <;> exact absurd h (by decide)

/-- A tag does not end within a field. -/
theorem Field.splitTag_write (f : Field) (rest : List Char) :
    splitTag none (f.write rest) = (f.write (splitTag none rest).1, (splitTag none rest).2) := by
  have hquote : splitTag none (f.quote :: (f.value ++ f.quote :: rest)) =
      (f.quote :: (f.value ++ f.quote :: (splitTag none rest).1), (splitTag none rest).2) := by
    have hvalue := splitTag_quoted (fun c hc => (f.plain c hc).2.2) rest
    have hisQuote : (f.quote == '"' || f.quote == '\'') = true := by simpa using f.isQuote
    have hne : (f.quote == '>') = false := by rcases f.isQuote with h | h <;> rw [h] <;> decide
    rw [splitTag]
    simp only [hne, hisQuote, Bool.false_eq_true, if_false, if_true, hvalue]
  have hequals : ∀ rest, splitTag none ('=' :: rest) =
      ('=' :: (splitTag none rest).1, (splitTag none rest).2) := fun _ => rfl
  rw [Field.write, Field.writeName,
    splitTag_append fun c hc => ne_of_isSpace (f.lead.spaces c hc),
    splitTag_append fun c hc => ne_of_isNameChar (f.isName.chars c hc),
    splitTag_append fun c hc => ne_of_isSpace (f.before.spaces c hc), hequals,
    splitTag_append fun c hc => ne_of_isSpace (f.behind.spaces c hc), hquote]
  rfl

theorem Opening.splitTag_write (o : Opening) (rest : List Char) :
    splitTag none (o.write rest) = (o.write (splitTag none rest).1, (splitTag none rest).2) := by
  rw [Opening.write, splitTag_append fun c hc => ne_of_isNameChar (o.isTagName.chars c hc),
    Opening.writeFields]
  have hfields : splitTag none (o.fields.foldr Field.write (o.trail.chars ++ rest)) =
      (o.fields.foldr Field.write (o.trail.chars ++ (splitTag none rest).1),
        (splitTag none rest).2) := by
    induction o.fields with
    | nil => exact splitTag_append (fun c hc => ne_of_isSpace (o.trail.spaces c hc)) rest
    | cons f fields ih => rw [List.foldr_cons, Field.splitTag_write, ih, List.foldr_cons]
  rw [hfields]
  rfl

theorem Field.write_append (f : Field) (cs rest : List Char) :
    f.write (cs ++ rest) = f.write cs ++ rest := by
  simp [Field.write, Field.writeName]

theorem Opening.write_append (o : Opening) (cs rest : List Char) :
    o.write (cs ++ rest) = o.write cs ++ rest := by
  have hfields : o.fields.foldr Field.write (o.trail.chars ++ (cs ++ rest)) =
      o.fields.foldr Field.write (o.trail.chars ++ cs) ++ rest := by
    induction o.fields with
    | nil => simp
    | cons f fields ih => rw [List.foldr_cons, ih, Field.write_append, List.foldr_cons]
  rw [Opening.write, Opening.writeFields, hfields, ← List.append_assoc]
  rfl

/-! A start tag with an end tag to it does not end in a slash: none of its parts does. -/

theorem getLast?_append_ne_slash {cs ds : List Char} (hcs : cs.getLast? ≠ some '/')
    (hds : ds.getLast? ≠ some '/') : (cs ++ ds).getLast? ≠ some '/' := by
  rw [List.getLast?_append]
  cases hlast : ds.getLast? with
  | none => exact hcs
  | some c => rwa [hlast] at hds

theorem IsTagName.getLast?_ne_slash {tag : String} (h : IsTagName tag) :
    tag.toList.getLast? ≠ some '/' :=
  fun hlast => absurd (h.chars '/' (List.mem_of_getLast? hlast)) (by decide)

theorem Space.getLast?_ne_slash (s : Space) : s.chars.getLast? ≠ some '/' :=
  fun hlast => absurd (s.spaces '/' (List.mem_of_getLast? hlast)) (by decide)

theorem Opening.getLast?_write (o : Opening) : (o.write []).getLast? ≠ some '/' := by
  refine getLast?_append_ne_slash o.isTagName.getLast?_ne_slash ?_
  rw [writeFields, List.append_nil]
  induction o.fields with
  | nil => exact o.trail.getLast?_ne_slash
  | cons f fields ih =>
    have hquote : (f.write []).getLast? ≠ some '/' := by
      have hlast : (f.write []).getLast? = some f.quote := by
        simp only [Field.write, Field.writeName, ← List.cons_append, ← List.append_assoc]
        exact List.getLast?_concat
      rw [hlast]
      rcases f.isQuote with h | h <;> rw [h] <;> decide
    rw [List.foldr_cons, ← List.nil_append (List.foldr _ _ _), Field.write_append]
    exact getLast?_append_ne_slash hquote ih

section

variable {limit depth : Nat} {cs rest : List Char}

theorem nestsBeyond_of_dropWhile_eq_nil (h : cs.dropWhile (· != '<') = []) :
    nestsBeyond limit depth cs = false := by
  rw [nestsBeyond]
  split
  · rfl
  · next hcons => simp [h] at hcons

/-- What counts of a tag. -/
theorem nestsBeyond_of_tag (h : cs.dropWhile (· != '<') = '<' :: rest)
    (hterminator : terminator? ('<' :: rest) = none) :
    nestsBeyond limit depth cs =
      if (splitTag none rest).1.head? == some '/' then
        nestsBeyond limit (depth - 1) (splitTag none rest).2
      else if (splitTag none rest).1.getLast? == some '/' then
        nestsBeyond limit depth (splitTag none rest).2
      else if limit ≤ depth then true
      else nestsBeyond limit (depth + 1) (splitTag none rest).2 := by
  rw [nestsBeyond]
  split
  · next hnil => simp [h] at hnil
  · next lt rest' hcons =>
    obtain ⟨rfl, rfl⟩ := List.cons.inj (h.symm.trans hcons)
    split
    · next hsome => simp [hterminator] at hsome
    · rfl

/-- What stands before the first tag counts for nothing. -/
theorem nestsBeyond_congr (h : cs.dropWhile (· != '<') = rest.dropWhile (· != '<')) :
    nestsBeyond limit depth cs = nestsBeyond limit depth rest := by
  rw [nestsBeyond.eq_def, nestsBeyond.eq_def limit depth rest, h]

theorem nestsBeyond_data (d : Data) (limit depth : Nat) (rest : List Char) :
    nestsBeyond limit depth (d.chars ++ rest) = nestsBeyond limit depth rest :=
  nestsBeyond_congr (List.dropWhile_append_of_pos fun c hc => by simpa using (d.plain c hc).1)

theorem terminator?_eq_none {c : Char} (hbang : c ≠ '!') (hquestion : c ≠ '?')
    (cs : List Char) : terminator? ('<' :: c :: cs) = none := by
  simp [terminator?, List.isPrefixOf, Ne.symm hbang, Ne.symm hquestion]

theorem terminator?_write (o : Opening) (rest : List Char) :
    terminator? ('<' :: o.write rest) = none := by
  obtain ⟨c, cs, hc, hwrite⟩ := o.exists_write_eq rest
  rw [hwrite]
  refine terminator?_eq_none ?_ ?_ cs <;> rintro rfl <;> exact absurd hc (by decide)

theorem head?_write (o : Opening) (rest : List Char) : (o.write rest).head? ≠ some '/' := by
  obtain ⟨c, cs, hc, hwrite⟩ := o.exists_write_eq rest
  rw [hwrite, List.head?_cons]
  intro heq
  obtain rfl := Option.some_inj.mp heq
  exact absurd hc (by decide)

theorem nestsBeyond_empty (o : Opening) (limit depth : Nat) (rest : List Char) :
    nestsBeyond limit depth ('<' :: o.write ('/' :: '>' :: rest)) =
      nestsBeyond limit depth rest := by
  have hsplit : splitTag none (o.write ('/' :: '>' :: rest)) = (o.write ['/'], rest) :=
    o.splitTag_write ('/' :: '>' :: rest)
  have hlast : (o.write ['/']).getLast? = some '/' := by
    have happend := o.write_append [] ['/']
    rw [List.nil_append] at happend
    rw [happend, List.getLast?_concat]
  rw [nestsBeyond_of_tag rfl (terminator?_write o _), hsplit,
    if_neg (by simpa using head?_write o _), if_pos (by simp [hlast])]

theorem nestsBeyond_open (o : Opening) (limit depth : Nat) (rest : List Char) :
    nestsBeyond limit depth ('<' :: o.write ('>' :: rest)) =
      if limit ≤ depth then true else nestsBeyond limit (depth + 1) rest := by
  have hsplit : splitTag none (o.write ('>' :: rest)) = (o.write [], rest) :=
    o.splitTag_write ('>' :: rest)
  rw [nestsBeyond_of_tag rfl (terminator?_write o _), hsplit,
    if_neg (by simpa using head?_write o _), if_neg (by simpa using o.getLast?_write)]

theorem nestsBeyond_close (o : Opening) (trail : Space) (limit depth : Nat) (rest : List Char) :
    nestsBeyond limit (depth + 1) ('<' :: o.writeEnd trail rest) =
      nestsBeyond limit depth rest := by
  have hsplit : splitTag none (o.writeEnd trail rest) =
      ('/' :: (o.tag.toList ++ (trail.chars ++ [])), rest) := by
    have hslash : ∀ rest, splitTag none ('/' :: rest) =
        ('/' :: (splitTag none rest).1, (splitTag none rest).2) := fun _ => rfl
    rw [Opening.writeEnd, hslash,
      splitTag_append fun c hc => ne_of_isNameChar (o.isTagName.chars c hc),
      splitTag_append fun c hc => ne_of_isSpace (trail.spaces c hc)]
    rfl
  have hterminator : terminator? ('<' :: o.writeEnd trail rest) = none :=
    terminator?_eq_none (by decide) (by decide) _
  rw [nestsBeyond_of_tag rfl hterminator, hsplit, if_pos (by simp), Nat.add_sub_cancel]

end

mutual

/-- **The count by eye.** Counting over a rendered element goes beyond the limit if its levels with
an end tag do, and goes on behind it otherwise. -/
theorem nestsBeyond_write (r : Rendering) (limit depth : Nat) (rest : List Char)
    (hdepth : depth ≤ limit) :
    nestsBeyond limit depth (r.write rest) =
      (decide (limit < depth + r.pairedHeight) || nestsBeyond limit depth rest) := by
  match r with
  | .empty o =>
    rw [Rendering.write, nestsBeyond_empty, Rendering.pairedHeight, Nat.add_zero,
      decide_eq_false (Nat.not_lt.mpr hdepth), Bool.false_or]
  | .paired o content trail =>
    rw [Rendering.write, nestsBeyond_open, Rendering.pairedHeight]
    by_cases hlimit : limit ≤ depth
    · rw [if_pos hlimit, decide_eq_true (by omega), Bool.true_or]
    · rw [if_neg hlimit, nestsBeyond_write_content content _ _ _ (by omega), nestsBeyond_close,
        Nat.add_assoc, Nat.add_comm 1]

theorem nestsBeyond_write_content (c : Content) (limit depth : Nat) (rest : List Char)
    (hdepth : depth ≤ limit) :
    nestsBeyond limit depth (c.write rest) =
      (decide (limit < depth + c.pairedHeight) || nestsBeyond limit depth rest) := by
  match c with
  | .last d =>
    rw [Content.write, nestsBeyond_data, Content.pairedHeight, Nat.add_zero,
      decide_eq_false (Nat.not_lt.mpr hdepth), Bool.false_or]
  | .more d inner content =>
    have hmax : decide (limit < depth + max inner.pairedHeight content.pairedHeight) =
        (decide (limit < depth + inner.pairedHeight) ||
          decide (limit < depth + content.pairedHeight)) := by
      rw [← Bool.decide_or]
      exact decide_eq_decide.mpr (by omega)
    rw [Content.write, nestsBeyond_data, nestsBeyond_write inner _ _ _ hdepth,
      nestsBeyond_write_content content _ _ _ hdepth, Content.pairedHeight, hmax, Bool.or_assoc]

end

/-! ## The reader -/

section

variable (lineEnds : Nat) (outer : List Frame) (rest : List Char)

theorem readContent?_data (d : Data) (top : Frame) :
    readContent? lineEnds top outer (d.chars ++ '<' :: rest) =
      readContent? lineEnds (top.addAll d.items) outer ('<' :: rest) := by
  rw [Data.items]
  by_cases hd : d.chars = []
  · rw [if_pos hd, hd]
    rfl
  · rw [if_neg hd, readContent?_text (d.token?_append hd rest)]
    rfl

theorem Rendering.exists_write_eq (r : Rendering) : ∃ cs, r.write rest = '<' :: cs := by
  cases r with
  | empty o => exact ⟨_, by rw [Rendering.write]⟩
  | paired o content trail => exact ⟨_, by rw [Rendering.write]⟩

/-- A name is remembered exactly if it is short and there is room for it. -/
theorem remember_eq_self_iff {name : List Char} (hne : name ≠ []) (used : Nat) :
    remember used name = name ↔ name.length ≤ longest ∧ used + 2 + name.length < capacity := by
  constructor
  · intro h
    rw [remember] at h
    split at h
    · exact absurd h.symm hne
    · next hroom =>
      have hshort : name.length ≤ longest := by
        have hlength := congrArg List.length h
        rw [List.length_take] at hlength
        omega
      rw [Nat.min_eq_left hshort] at hroom
      exact ⟨hshort, Nat.not_le.mp hroom⟩
  · rintro ⟨hshort, hroom⟩
    exact remember_of_short hshort hroom

/-- What follows in a document that has been read up to an end tag. -/
def resume : Element → Option (Element × List Char) :=
  fun e => match outer with
    | [] => some (e, rest)
    | f :: outer => readContent? lineEnds (f.add (.element e)) outer rest

/-- An end tag closes the element of its name, if that name is remembered. -/
theorem readContent?_writeEnd (o : Opening) (trail : Space) {top : Frame}
    (hname : top.tag = o.tag.toList) :
    readContent? lineEnds top outer ('<' :: o.writeEnd trail rest) =
      if top.remembered = o.tag.toList then resume lineEnds outer rest (top.toElement none)
      else none := by
  have hclosed : top.closedBy o.tag.toList = decide (top.remembered = o.tag.toList) := by
    have hne : o.tag.toList.isEmpty = false := by simpa using o.isTagName.nonempty
    rw [Frame.closedBy, hne, Bool.not_false, Bool.true_and, Bool.beq_eq_decide_eq]
    exact decide_eq_decide.mpr eq_comm
  rw [readContent?_close (o.token?_writeEnd rest trail), hclosed, strayEnd?, if_pos hname.symm]
  cases outer <;> simp only [decide_eq_true_eq, resume]

end

theorem Frame.used_addAll (f : Frame) (items : List Item) : (f.addAll items).used = f.used := rfl

/-- The frame of a rendered element whose content has been read. -/
theorem Frame.toElement_ofStart (used : Nat) (o : Opening) (items : List Item) :
    ((Frame.ofStart used ⟨o.tag.toList, o.attributes, false⟩).addAll items).toElement none =
      .mk o.tag o.attributes items none := by
  simp [Frame.toElement, Frame.addAll, Frame.ofStart]

theorem Frame.remembered_ofStart (used : Nat) (t : StartTag) (items : List Item) :
    ((Frame.ofStart used t).addAll items).remembered = remember used t.tag := rfl

/-- An element is read from behind its start tag to its end, if its content is read. -/
theorem readContent?_paired (o : Opening) (content : Content) (trail : Space) (lineEnds used : Nat)
    (outer : List Frame) (rest : List Char)
    (hcontent : ∀ (top : Frame) (rest : List Char),
      readContent? lineEnds top outer (content.write ('<' :: rest)) =
        if content.fits top.used then
          readContent? lineEnds (top.addAll content.items) outer ('<' :: rest)
        else none) :
    readContent? lineEnds (Frame.ofStart used ⟨o.tag.toList, o.attributes, false⟩) outer
        (content.write ('<' :: o.writeEnd trail rest)) =
      if (Rendering.paired o content trail).fits used then
        resume lineEnds outer rest (Rendering.paired o content trail).element
      else none := by
  have hremember := remember_eq_self_iff o.isTagName.nonempty used
  rw [hcontent, readContent?_writeEnd lineEnds outer rest o trail rfl,
    Frame.toElement_ofStart, Frame.remembered_ofStart, Rendering.fits, Rendering.element]
  by_cases hname : remember used o.tag.toList = o.tag.toList
  · obtain ⟨hshort, hroom⟩ := hremember.mp hname
    have hused : (Frame.ofStart used ⟨o.tag.toList, o.attributes, false⟩).used =
        used + 1 + o.tag.toList.length := by
      rw [Frame.ofStart, hname]
    rw [hused, if_pos hname, decide_eq_true hshort, decide_eq_true hroom, Bool.true_and,
      Bool.true_and]
  · -- A forgotten name cannot be closed, whatever becomes of the content.
    have hforgotten : (decide (o.tag.toList.length ≤ longest) &&
        decide (used + 2 + o.tag.toList.length < capacity)) = false := by
      rw [← Bool.decide_and]
      exact decide_eq_false fun h => hname (hremember.mpr h)
    rw [if_neg hname, hforgotten, Bool.false_and, ite_self, if_neg Bool.false_ne_true]

mutual

/-- **The reader.** A rendered element is read if the names fit, and not otherwise. -/
theorem readContent?_write (r : Rendering) (lineEnds : Nat) (top : Frame) (outer : List Frame)
    (rest : List Char) :
    readContent? lineEnds top outer (r.write rest) =
      if r.fits top.used then readContent? lineEnds (top.add (.element r.element)) outer rest
      else none := by
  match r with
  | .empty o =>
    have htoken := o.token?_write _ (o.startTag?_write_empty rest)
    rw [Rendering.write, readContent?_start htoken, if_pos rfl, Rendering.fits, if_pos rfl,
      Rendering.element, StartTag.toElement, String.ofList_toList]
  | .paired o content trail =>
    have htoken := o.token?_write _
      (o.startTag?_write_paired (content.write ('<' :: o.writeEnd trail rest)))
    rw [Rendering.write, readContent?_start htoken, if_neg Bool.false_ne_true,
      readContent?_paired o content trail lineEnds top.used (top :: outer) rest
        fun top' rest' => readContent?_write_content content lineEnds top' (top :: outer) rest']
    rfl

theorem readContent?_write_content (c : Content) (lineEnds : Nat) (top : Frame)
    (outer : List Frame) (rest : List Char) :
    readContent? lineEnds top outer (c.write ('<' :: rest)) =
      if c.fits top.used then readContent? lineEnds (top.addAll c.items) outer ('<' :: rest)
      else none := by
  match c with
  | .last d =>
    rw [Content.write, readContent?_data, Content.fits, if_pos rfl, Content.items]
  | .more d inner content =>
    obtain ⟨cs, hcs⟩ := inner.exists_write_eq (content.write ('<' :: rest))
    rw [Content.write, hcs, readContent?_data, ← hcs, readContent?_write inner,
      readContent?_write_content content, Content.fits, Content.items, Frame.addAll_append,
      Frame.addAll_cons, Frame.used_addAll]
    show (if inner.fits top.used then if content.fits top.used then _ else _ else _) = _
    cases inner.fits top.used <;> rfl

end

/-! ## Faults -/

theorem Data.faultOfItems_items (d : Data) (depth : Nat) : faultOfItems depth d.items = none := by
  rw [Data.items]
  split <;> simp [faultOfItems]

mutual

/-- A rendered element has a fault exactly if it is too deep. -/
theorem Rendering.fault?_element (r : Rendering) (depth : Nat) :
    r.element.fault? (depth + 1) =
      if maxNesting < depth + r.height then some .nestingTooDeep else none := by
  match r with
  | .empty o =>
    rw [Rendering.element, Element.fault?, Rendering.height]
    rfl
  | .paired o content trail =>
    rw [Rendering.element, Element.fault?, Rendering.height]
    by_cases hdepth : maxNesting < depth + 1
    · rw [if_pos hdepth, if_pos (by omega)]
    · rw [if_neg hdepth, content.faultOfItems_items _ (by omega), Nat.add_right_comm depth 1,
        Nat.add_assoc]
      simp

theorem Content.faultOfItems_items (c : Content) (depth : Nat) (hdepth : depth ≤ maxNesting) :
    faultOfItems (depth + 1) c.items =
      if maxNesting < depth + c.height then some .nestingTooDeep else none := by
  match c with
  | .last d =>
    rw [Content.items, Data.faultOfItems_items, Content.height, if_neg (by omega)]
  | .more d inner content =>
    rw [Content.items, faultOfItems_append, Data.faultOfItems_items, faultOfItems,
      inner.fault?_element, content.faultOfItems_items depth hdepth, Content.height]
    have hmax : maxNesting < depth + max inner.height content.height ↔
        maxNesting < depth + inner.height ∨ maxNesting < depth + content.height := by omega
    by_cases hinner : maxNesting < depth + inner.height
    · rw [if_pos hinner, if_pos (hmax.mpr (.inl hinner))]
      rfl
    · by_cases hcontent : maxNesting < depth + content.height
      · rw [if_neg hinner, if_pos hcontent, if_pos (hmax.mpr (.inr hcontent))]
        rfl
      · rw [if_neg hinner, if_neg hcontent, if_neg fun h => (hmax.mp h).elim hinner hcontent]
        rfl

end

/-! ## Documents -/

theorem skipMark_append (s : Space) (cs : List Char) :
    skipMark (s.chars ++ '<' :: cs) = s.chars ++ '<' :: cs := by
  cases hs : s.chars with
  | nil => rfl
  | cons c chars =>
    have hc : (c == '\uFEFF') = false := by
      have hspace : isSpace c = true := s.spaces c (hs ▸ List.mem_cons_self)
      rw [beq_eq_false_iff_ne]
      rintro rfl
      exact absurd hspace (by decide)
    rw [List.cons_append, skipMark, hc]
    rfl

theorem skipProlog_append (s : Space) {cs : List Char} (h : Stops isSpace cs) :
    skipProlog (s.chars ++ cs) = skipProlog cs := by
  rw [skipProlog, skipProlog, skipSpace_append s h, skipSpace_of_stops h]

theorem skipAsides_space (s : Space) : skipAsides s.chars = [] := by
  have hnil : Stops isSpace [] := by simp [Stops]
  have hskip := skipSpace_append s hnil
  rw [List.append_nil] at hskip
  rw [skipAsides_of_aside?_eq_none] <;> rw [hskip]
  rfl

theorem skipProlog_write (r : Rendering) (rest : List Char) :
    skipProlog (r.write rest) = r.write rest := by
  have hopening : ∀ (o : Opening) (rest : List Char),
      skipProlog ('<' :: o.write rest) = '<' :: o.write rest := by
    intro o rest
    obtain ⟨c, cs, hc, hwrite⟩ := o.exists_write_eq rest
    rw [hwrite]
    refine skipProlog_of_tag ?_ ?_ <;> rintro rfl <;> exact absurd hc (by decide)
  cases r with
  | empty o => rw [Rendering.write, hopening]
  | paired o content trail => rw [Rendering.write, hopening]

theorem element?_write (r : Rendering) (lineEnds : Nat) (rest : List Char) :
    element? lineEnds (r.write rest) =
      if r.fits reserved then some (r.element, rest) else none := by
  cases r with
  | empty o =>
    rw [Rendering.write, element?, o.startTag?_write_empty, Rendering.fits, Rendering.element]
    simp [StartTag.toElement]
  | paired o content trail =>
    rw [Rendering.write, element?, o.startTag?_write_paired]
    exact readContent?_paired o content trail lineEnds reserved [] rest
      fun top rest => readContent?_write_content content lineEnds top [] rest

namespace Sheet

variable (s : Sheet)

theorem readRoot?_write :
    readRoot? s.write = if s.root.fits reserved then some s.root.element else none := by
  obtain ⟨cs, hcs⟩ := s.root.exists_write_eq s.trail.chars
  have hprolog : skipProlog (skipMark s.write) = s.root.write s.trail.chars := by
    rw [Sheet.write, hcs, skipMark_append, skipProlog_append _ (stops_cons (by decide)), ← hcs,
      skipProlog_write]
  rw [readRoot?, hprolog, element?_write]
  by_cases hfits : s.root.fits reserved = true
  · rw [if_pos hfits, if_pos hfits]
    simp [skipAsides_space]
  · rw [if_neg hfits, if_neg hfits]

theorem nestsBeyond_write :
    nestsBeyond maxNesting 0 s.write = decide (maxNesting < s.root.pairedHeight) := by
  have hspace : ∀ t : Space, ∀ c ∈ t.chars, (c != '<') = true := by
    intro t c hc
    rw [bne_iff_ne]
    rintro rfl
    exact absurd (t.spaces _ hc) (by decide)
  have htrail : nestsBeyond maxNesting 0 s.trail.chars = false := by
    refine nestsBeyond_of_dropWhile_eq_nil ?_
    rw [← List.append_nil s.trail.chars, List.dropWhile_append_of_pos (hspace s.trail)]
    rfl
  have hlead : (s.write).dropWhile (· != '<') =
      (s.root.write s.trail.chars).dropWhile (· != '<') := by
    rw [Sheet.write, List.dropWhile_append_of_pos (hspace s.lead)]
  rw [nestsBeyond_congr hlead, Markup.nestsBeyond_write s.root _ _ _ (Nat.zero_le _), htrail,
    Bool.or_false, Nat.zero_add]

/-- What becomes of a rendered document. -/
theorem parse_text :
    parse s.text =
      if s.root.fits reserved then
        if maxNesting < s.root.height then .error (.nestingTooDeep maxNesting)
        else .ok s.root.element.toNode
      else
        if maxNesting < s.root.pairedHeight then .error (.nestingTooDeep maxNesting)
        else .error .noDocument := by
  have hfault := s.root.fault?_element 0
  rw [Nat.zero_add, Nat.zero_add] at hfault
  rw [parse, Sheet.text, String.toList_ofList, readRoot?_write, nestsBeyond_write]
  by_cases hfits : s.root.fits reserved = true
  · rw [if_pos hfits, if_pos hfits]
    simp only [hfault]
    by_cases hheight : maxNesting < s.root.height
    · simp [hheight, Fault.toError]
    · simp [hheight]
  · rw [if_neg hfits, if_neg hfits]
    simp

end Sheet

/-- **Which rendered documents are too deep.** A document is refused as too deep exactly if an
element lies below the deepest level and either the names fit the memory or an element with an end
tag lies there; so always when it goes two levels too far. Otherwise it is malformed. -/
theorem reports_nesting (s : Sheet) :
    (parse s.text = .error (.nestingTooDeep maxNesting) ↔
      maxNesting < s.root.height ∧
        (s.root.fits reserved = true ∨ maxNesting < s.root.pairedHeight)) ∧
    (maxNesting + 1 < s.root.height → parse s.text = .error (.nestingTooDeep maxNesting)) ∧
    (maxNesting < s.root.height → parse s.text = .error (.nestingTooDeep maxNesting) ∨
      parse s.text = .error .noDocument) := by
  have hle := s.root.pairedHeight_le
  have hge := s.root.height_le
  rw [s.parse_text]
  by_cases hfits : s.root.fits reserved = true
  · rw [if_pos hfits]
    by_cases hheight : maxNesting < s.root.height
    · simp [hheight, hfits]
    · rw [if_neg hheight]
      refine ⟨?_, fun h => absurd (Nat.lt_of_succ_lt h) hheight, fun h => absurd h hheight⟩
      simp [hheight]
  · rw [if_neg hfits]
    by_cases hpaired : maxNesting < s.root.pairedHeight
    · simp [hpaired, Nat.lt_of_lt_of_le hpaired hle]
    · rw [if_neg hpaired]
      refine ⟨?_, fun h => absurd h (by omega), fun _ => .inr rfl⟩
      simp [hpaired, hfits, ParseError.noDocument]

/-! ## A column of elements -/

def Space.none : Space := ⟨[], by simp⟩

def Data.none : Data := ⟨[], by simp⟩

/-- A start tag without attributes. -/
def Opening.bare (tag : String) (h : IsTagName tag) : Opening := ⟨tag, [], .none, h⟩

/-- The rendering `r` inside `n` elements, each the only child of the one around it. -/
def Rendering.inside (o : Opening) (r : Rendering) : Nat → Rendering
  | 0 => r
  | n + 1 => .paired o (.more .none (r.inside o n) (.last .none)) .none

section

variable (o : Opening) (r : Rendering)

theorem Rendering.height_inside (n : Nat) : (r.inside o n).height = r.height + n := by
  induction n with
  | zero => rfl
  | succ n ih =>
    rw [inside, height, Content.height, Content.height, ih, Nat.max_zero, Nat.add_assoc]

theorem Rendering.pairedHeight_inside (n : Nat) :
    (r.inside o n).pairedHeight = r.pairedHeight + n := by
  induction n with
  | zero => rfl
  | succ n ih =>
    rw [inside, pairedHeight, Content.pairedHeight, Content.pairedHeight, ih, Nat.max_zero,
      Nat.add_assoc]

/-- Each level takes a byte more than the length of its name. -/
theorem Rendering.room_of_fits {used n : Nat} (h : (r.inside o n).fits used = true)
    (hn : 0 < n) : used + n * (o.tag.toList.length + 1) + 1 < capacity := by
  induction n generalizing used with
  | zero => exact absurd hn (Nat.lt_irrefl 0)
  | succ n ih =>
    rw [inside, fits, Content.fits, Bool.and_eq_true, Bool.and_eq_true, Bool.and_eq_true,
      decide_eq_true_eq, decide_eq_true_eq] at h
    obtain ⟨⟨-, hroom⟩, hinner, -⟩ := h
    rw [Nat.add_mul]
    by_cases hn : 0 < n
    · have := ih hinner hn
      omega
    · rw [Nat.eq_zero_of_not_pos hn]
      omega

theorem Rendering.write_inside (n : Nat) (rest : List Char) :
    (r.inside o n).write rest =
      (List.replicate n ('<' :: o.write ['>'])).flatten ++
        r.write ((List.replicate n ('<' :: o.writeEnd .none [])).flatten ++ rest) := by
  induction n generalizing rest with
  | zero => rfl
  | succ n ih =>
    have hopen : ∀ cs, o.write ('>' :: cs) = o.write ['>'] ++ cs :=
      fun cs => o.write_append ['>'] cs
    have hclose : '<' :: o.writeEnd .none rest = '<' :: o.writeEnd .none [] ++ rest := by
      simp [Opening.writeEnd]
    rw [inside, write, Content.write, Content.write, Data.none, List.nil_append, List.nil_append,
      ih, hopen, hclose, List.replicate_succ, List.flatten_cons, List.replicate_succ',
      List.flatten_append]
    simp

end

/-- The text of an empty element inside `n` elements, all without attributes. -/
theorem Rendering.write_inside_bare {tag inner : String} (htag : IsTagName tag)
    (hinner : IsTagName inner) (n : Nat) :
    ((Rendering.empty (.bare inner hinner)).inside (.bare tag htag) n).write [] =
      (List.replicate n ("<" ++ tag ++ ">").toList).flatten ++
        (("<" ++ inner ++ "/>").toList ++
          (List.replicate n ("</" ++ tag ++ ">").toList).flatten) := by
  have hopen : '<' :: (Opening.bare tag htag).write ['>'] = ("<" ++ tag ++ ">").toList := by
    rw [String.toList_append, String.toList_append]
    rfl
  have hclose : '<' :: (Opening.bare tag htag).writeEnd .none [] = ("</" ++ tag ++ ">").toList := by
    rw [String.toList_append, String.toList_append]
    rfl
  have hempty : ∀ rest, (Rendering.empty (.bare inner hinner)).write rest =
      ("<" ++ inner ++ "/>").toList ++ rest := by
    intro rest
    rw [String.toList_append, String.toList_append, List.append_assoc, List.append_assoc]
    rfl
  rw [write_inside, hopen, hclose, hempty, List.append_nil]

/-- An empty element one level too deep, inside elements whose names do not fit the memory: the
document is refused as malformed, though it is too deep. -/
theorem parse_column :
    ∃ s : Sheet, s.root.height = maxNesting + 1 ∧ parse s.text = .error .noDocument ∧
      s.text = String.ofList ((List.replicate 256 "<Sequence>".toList).flatten ++
        ("<x/>".toList ++ (List.replicate 256 "</Sequence>".toList).flatten)) := by
  have hsequence : IsTagName "Sequence" := ⟨by decide, List.all_eq_true.mp (by decide)⟩
  have hx : IsTagName "x" := ⟨by decide, List.all_eq_true.mp (by decide)⟩
  -- The root is kept closed: it has 257 levels.
  obtain ⟨root, hroot⟩ : ∃ root, root =
    (Rendering.empty (.bare "x" hx)).inside (.bare "Sequence" hsequence) 256 := ⟨_, rfl⟩
  have hheight : root.height = maxNesting + 1 := by
    rw [hroot, Rendering.height_inside, Rendering.height]
    decide
  have hpaired : ¬ maxNesting < root.pairedHeight := by
    rw [hroot, Rendering.pairedHeight_inside, Rendering.pairedHeight]
    decide
  have hfits : ¬ root.fits reserved = true := by
    intro hfits
    rw [hroot] at hfits
    have hroom := Rendering.room_of_fits _ _ hfits (by decide)
    have hlength : (Opening.bare "Sequence" hsequence).tag.toList.length = 8 := by
      show "Sequence".toList.length = 8
      decide
    rw [hlength] at hroom
    exact absurd hroom (by decide)
  refine ⟨⟨.none, root, .none⟩, hheight, ?_, ?_⟩
  · rw [Sheet.parse_text, if_neg hfits, if_neg hpaired]
  · have hlead : Sheet.write ⟨.none, root, .none⟩ = root.write [] := rfl
    rw [Sheet.text, hlead, hroot, Rendering.write_inside_bare]
    rfl

end BehaviorIndex.Markup
