import BehaviorIndex.Proofs.Markup.Collection
import Mathlib.Data.List.Forall2

/-!
# Where the start tags of a document stand

The elements of a parsed tree have lost their places in the text. Here they get them back:
`tagTexts` follows the reader through any document, over comments, sections and instructions, and
notes the text from each start tag on. These texts and the occurrences of the root correspond, one
to one and in order.

**Theorems.** The texts of the occurrences begin with their start tags, each an end of the document
and of the one before (`sources_of_readRoot?`). The text of an element inside an occurrence is an
end of the text of that occurrence (`Sources.exists_text_of_mem_items`).
-/

namespace BehaviorIndex.Markup

/-! ## The texts of start tags -/

/-- The text from each start tag on, in what is left of the content of an element, when `depth`
elements inside it are open. -/
def tagTextsFrom (depth : Nat) (cs : List Char) : List (List Char) :=
  match _h : token? cs with
  | none => []
  | some (.text _, rest) => tagTextsFrom depth rest
  | some (.silent, rest) => tagTextsFrom depth rest
  | some (.start t, rest) => cs :: tagTextsFrom (if t.selfClosing then depth else depth + 1) rest
  | some (.close _, rest) =>
    match depth with
    | 0 => []
    | depth + 1 => tagTextsFrom depth rest
termination_by cs.length
decreasing_by all_goals exact length_of_token? _h

/-- The text from each start tag on, of the element at the start of a text. -/
def elementTexts : List Char → List (List Char)
  | '<' :: cs =>
    match startTag? cs with
    | none => []
    | some (t, rest) => ('<' :: cs) :: if t.selfClosing then [] else tagTextsFrom 0 rest
  | _ => []

/-- The text from each start tag of a document on. -/
def tagTexts (cs : List Char) : List (List Char) := elementTexts (skipProlog (skipMark cs))

theorem elementTexts_of_startTag? {cs rest : List Char} {t : StartTag}
    (h : startTag? cs = some (t, rest)) :
    elementTexts ('<' :: cs) =
      ('<' :: cs) :: if t.selfClosing then [] else tagTextsFrom 0 rest := by
  rw [elementTexts, h]

/-- The text is an end of the other, and shorter. -/
def EndsWithin (later text : List Char) : Prop := later <:+ text ∧ later.length < text.length

section

variable {depth : Nat} {cs rest : List Char}

theorem tagTextsFrom_text {t : List Char} (h : token? cs = some (.text t, rest)) :
    tagTextsFrom depth cs = tagTextsFrom depth rest := by
  rw [tagTextsFrom]
  split <;> simp_all

theorem tagTextsFrom_silent (h : token? cs = some (.silent, rest)) :
    tagTextsFrom depth cs = tagTextsFrom depth rest := by
  rw [tagTextsFrom]
  split <;> simp_all

theorem tagTextsFrom_start {t : StartTag} (h : token? cs = some (.start t, rest)) :
    tagTextsFrom depth cs =
      cs :: tagTextsFrom (if t.selfClosing then depth else depth + 1) rest := by
  rw [tagTextsFrom]
  split <;> simp_all

theorem tagTextsFrom_close_zero {name : List Char} (h : token? cs = some (.close name, rest)) :
    tagTextsFrom 0 cs = [] := by
  rw [tagTextsFrom.eq_def]
  split <;> next h' => cases h.symm.trans h' <;> rfl

theorem tagTextsFrom_close_succ {name : List Char} (h : token? cs = some (.close name, rest)) :
    tagTextsFrom (depth + 1) cs = tagTextsFrom depth rest := by
  rw [tagTextsFrom.eq_def]
  split <;> next h' => cases h.symm.trans h' <;> rfl

theorem suffix_of_mem_tagTextsFrom {text : List Char} (h : text ∈ tagTextsFrom depth cs) :
    text <:+ cs := by
  fun_induction tagTextsFrom depth cs with
  | case1 => cases h
  | case2 depth cs _ rest htoken ih => exact (ih h).trans (suffix_of_token? htoken)
  | case3 depth cs rest htoken ih => exact (ih h).trans (suffix_of_token? htoken)
  | case4 depth cs t rest htoken ih =>
    rcases List.mem_cons.mp h with rfl | h
    · exact List.suffix_rfl
    · exact (ih h).trans (suffix_of_token? htoken)
  | case5 => cases h
  | case6 cs _ rest htoken depth ih => exact (ih h).trans (suffix_of_token? htoken)

/-- A later start tag stands behind the first character of an earlier one. -/
theorem pairwise_tagTextsFrom (depth : Nat) (cs : List Char) :
    (tagTextsFrom depth cs).Pairwise fun text later => EndsWithin later text := by
  fun_induction tagTextsFrom depth cs with
  | case1 => exact List.Pairwise.nil
  | case2 _ _ _ _ _ ih => exact ih
  | case3 _ _ _ _ ih => exact ih
  | case4 depth cs t rest htoken ih =>
    refine List.pairwise_cons.mpr ⟨fun later hlater => ?_, ih⟩
    exact ⟨(suffix_of_mem_tagTextsFrom hlater).trans (suffix_of_token? htoken),
      Nat.lt_of_le_of_lt (suffix_of_mem_tagTextsFrom hlater).length_le (length_of_token? htoken)⟩
  | case5 => exact List.Pairwise.nil
  | case6 _ _ _ _ _ ih => exact ih

theorem suffix_of_mem_elementTexts {text : List Char} (h : text ∈ elementTexts cs) :
    text <:+ cs := by
  unfold elementTexts at h
  split at h
  · next cs =>
    split at h
    · cases h
    · next t rest hstart =>
      rcases List.mem_cons.mp h with rfl | h
      · exact List.suffix_rfl
      · split at h
        · cases h
        · calc text <:+ rest := suffix_of_mem_tagTextsFrom h
            _ <:+ cs := (passes_of_startTag? hstart).suffix
            _ <:+ '<' :: cs := List.suffix_cons _ cs
  · cases h

theorem pairwise_elementTexts (cs : List Char) :
    (elementTexts cs).Pairwise fun text later => EndsWithin later text := by
  unfold elementTexts
  split
  · next cs =>
    split
    · exact List.Pairwise.nil
    · next t rest hstart =>
      split
      · exact List.pairwise_singleton _ _
      · refine List.pairwise_cons.mpr ⟨fun later hlater => ?_, pairwise_tagTextsFrom 0 rest⟩
        have hsuffix : later <:+ cs :=
          (suffix_of_mem_tagTextsFrom hlater).trans (passes_of_startTag? hstart).suffix
        exact ⟨hsuffix.trans (List.suffix_cons _ cs), Nat.lt_succ_of_le hsuffix.length_le⟩
  · exact List.Pairwise.nil

theorem suffix_of_mem_tagTexts {text : List Char} (h : text ∈ tagTexts cs) : text <:+ cs :=
  calc text <:+ skipProlog (skipMark cs) := suffix_of_mem_elementTexts h
    _ <:+ skipMark cs := suffix_skipProlog _
    _ <:+ cs := (passes_skipMark cs).suffix

end

/-! ## The start tags are those of the elements -/

/-- The text begins with a start tag that says this of its element. -/
def Begins (opening : String × Attributes) (text : List Char) : Prop :=
  ∃ behind t rest, text = '<' :: behind ∧ startTag? behind = some (t, rest) ∧ t.opening = opening

theorem isPrefix_of_tagName? {cs name rest : List Char} (h : tagName? cs = some (name, rest)) :
    name <+: cs := by
  cases cs with
  | nil => cases h
  | cons c cs =>
    rw [tagName?] at h
    split at h
    · cases h
      exact List.cons_prefix_cons.mpr ⟨rfl, List.takeWhile_prefix _⟩
    · cases h

theorem Begins.isPrefix {opening : String × Attributes} {text : List Char}
    (h : Begins opening text) : '<' :: opening.1.toList <+: text := by
  obtain ⟨behind, t, rest, rfl, hstart, rfl⟩ := h
  obtain ⟨_, htag, -⟩ := startTag?_eq_some hstart
  rw [StartTag.opening, String.toList_ofList]
  exact List.cons_prefix_cons.mpr ⟨rfl, isPrefix_of_tagName? htag⟩

/-- **Reading content.** The texts of the open elements, followed by those of the start tags that
are still to be read, are the texts of all elements. -/
theorem begins_of_readContent? {lineEnds : Nat} {top : Frame} {outer : List Frame}
    {cs rest : List Char} {root : Element} {texts : List (List Char)}
    (hframes : List.Forall₂ Begins (openingsOfFrames top outer) texts)
    (h : readContent? lineEnds top outer cs = some (root, rest)) :
    List.Forall₂ Begins root.openings (texts ++ tagTextsFrom outer.length cs) := by
  cases htoken : token? cs with
  | none =>
    rw [readContent?_eq_none htoken] at h
    cases h
  | some read =>
    obtain ⟨token, mid⟩ := read
    have hshorter := length_of_token? htoken
    cases token with
    | text t =>
      rw [readContent?_text htoken] at h
      rw [tagTextsFrom_text htoken]
      refine begins_of_readContent? ?_ h
      rwa [openingsOfFrames_add_text]
    | silent =>
      rw [readContent?_silent htoken] at h
      rw [tagTextsFrom_silent htoken]
      exact begins_of_readContent? hframes h
    | start t =>
      obtain ⟨behind, hcs, hstart⟩ := startTag?_of_token? htoken
      have hall : List.Forall₂ Begins (openingsOfFrames top outer ++ [t.opening]) (texts ++ [cs]) :=
        List.rel_append hframes (.cons ⟨behind, t, mid, hcs, hstart, rfl⟩ .nil)
      rw [readContent?_start htoken] at h
      rw [tagTextsFrom_start htoken, ← List.singleton_append, ← List.append_assoc]
      split at h
      · next hself =>
        rw [if_pos hself]
        refine begins_of_readContent? ?_ h
        rwa [openingsOfFrames_add_element, StartTag.openings_toElement]
      · next hself =>
        rw [if_neg hself]
        rw [← Frame.openings_ofStart top.used, ← openingsOfFrames_cons] at hall
        exact begins_of_readContent? hall h
    | close name =>
      rw [readContent?_close htoken] at h
      split at h
      · cases outer with
        | nil =>
          cases h
          rwa [List.length_nil, tagTextsFrom_close_zero htoken, List.append_nil,
            Frame.openings_toElement]
        | cons f outer =>
          rw [List.length_cons, tagTextsFrom_close_succ htoken]
          refine begins_of_readContent? ?_ h
          rwa [openingsOfFrames_add_element, Frame.openings_toElement, ← openingsOfFrames_cons]
      · cases h
termination_by cs.length

theorem begins_of_element? {lineEnds : Nat} {cs rest : List Char} {root : Element}
    (h : element? lineEnds cs = some (root, rest)) :
    List.Forall₂ Begins root.openings (elementTexts cs) := by
  unfold element? at h
  split at h
  · next cs =>
    split at h
    · cases h
    · next t mid hstart =>
      have hfirst : List.Forall₂ Begins [t.opening] ['<' :: cs] :=
        .cons ⟨cs, t, mid, rfl, hstart, rfl⟩ .nil
      rw [elementTexts_of_startTag? hstart]
      split at h
      · next hself =>
        cases h
        rwa [if_pos hself, StartTag.openings_toElement]
      · next hself =>
        rw [if_neg hself]
        rw [← Frame.openings_ofStart reserved, ← openingsOfFrames_nil] at hfirst
        exact begins_of_readContent? hfirst h
  · cases h

theorem begins_of_readRoot? {cs : List Char} {root : Element} (h : readRoot? cs = some root) :
    List.Forall₂ Begins root.openings (tagTexts cs) := by
  rw [readRoot?] at h
  split at h
  · next root' rest hread =>
    split at h
    · cases h
      exact begins_of_element? hread
    · cases h
  · cases h

/-! ## The texts of occurrences -/

/-- What the start tag of an occurrence says. -/
def Occurrence.opening (o : Occurrence) : String × Attributes :=
  (o.element.tag, o.element.attributes)

mutual

theorem Element.openings_eq : (e : Element) → e.openings = e.occurrences.map Occurrence.opening
  | .mk tag as items stray => by
    rw [Element.openings, Element.occurrences, List.map_cons, openingsOfItems_eq 0 items]
    rfl

theorem openingsOfItems_eq (place : Nat) : (items : List Item) →
    openingsOfItems items = (occurrencesOfItems place items).map Occurrence.opening
  | [] => rfl
  | .text _ :: is => openingsOfItems_eq place is
  | .element e :: is => by
    rw [openingsOfItems, occurrencesOfItems, List.map_append, List.map_map, Element.openings_eq e,
      openingsOfItems_eq (place + 1) is]
    rfl

end

/-- In document order: the elements inside an occurrence come after it. -/
def InOrder : List Occurrence → Prop
  | [] => True
  | o :: later =>
    (∀ inner, .element inner ∈ o.element.items → ∃ o' ∈ later, o'.element = inner) ∧ InOrder later

theorem InOrder.append {first second : List Occurrence} (hfirst : InOrder first)
    (hsecond : InOrder second) : InOrder (first ++ second) := by
  induction first with
  | nil => exact hsecond
  | cons o later ih =>
    refine ⟨fun inner hinner => ?_, ih hfirst.2⟩
    obtain ⟨o', ho', helement⟩ := hfirst.1 inner hinner
    exact ⟨o', List.mem_append_left _ ho', helement⟩

theorem InOrder.under {found : List Occurrence} (h : InOrder found) (s : Step) :
    InOrder (found.map (Occurrence.under s)) := by
  induction found with
  | nil => trivial
  | cons o later ih =>
    refine ⟨fun inner hinner => ?_, ih h.2⟩
    obtain ⟨o', ho', helement⟩ := h.1 inner hinner
    exact ⟨o'.under s, List.mem_map_of_mem ho', helement⟩

theorem Element.mem_occurrences_self (e : Element) : ⟨[], e⟩ ∈ e.occurrences := by
  obtain ⟨tag, as, items, stray⟩ := e
  rw [Element.occurrences]
  exact List.mem_cons_self

theorem exists_occurrence_of_mem_items {items : List Item} {inner : Element}
    (h : .element inner ∈ items) (place : Nat) :
    ∃ o ∈ occurrencesOfItems place items, o.element = inner := by
  induction items generalizing place with
  | nil => cases h
  | cons item items ih =>
    cases item with
    | text s => exact ih ((List.mem_cons.mp h).resolve_left (by simp)) place
    | element e =>
      rw [occurrencesOfItems]
      rcases List.mem_cons.mp h with heq | h
      · cases heq
        refine ⟨.under ⟨place, inner.tag⟩ ⟨[], inner⟩, List.mem_append_left _ ?_, rfl⟩
        exact List.mem_map_of_mem inner.mem_occurrences_self
      · obtain ⟨o, ho, helement⟩ := ih h (place + 1)
        exact ⟨o, List.mem_append_right _ ho, helement⟩

mutual

theorem Element.inOrder_occurrences : (e : Element) → InOrder e.occurrences
  | .mk tag as items stray => by
    rw [Element.occurrences]
    exact ⟨fun inner hinner => exists_occurrence_of_mem_items hinner 0,
      inOrder_occurrencesOfItems 0 items⟩

theorem inOrder_occurrencesOfItems (place : Nat) : (items : List Item) →
    InOrder (occurrencesOfItems place items)
  | [] => trivial
  | .text _ :: is => inOrder_occurrencesOfItems place is
  | .element e :: is => by
    rw [occurrencesOfItems]
    exact (e.inOrder_occurrences.under _).append (inOrder_occurrencesOfItems (place + 1) is)

end

/-- The texts of a document are those of the occurrences of its root, in document order. -/
structure Sources (cs : List Char) (root : Element) : Prop where
  begins : List.Forall₂ (fun o text => Begins o.opening text) root.occurrences (tagTexts cs)
  suffix : ∀ text ∈ tagTexts cs, text <:+ cs
  later : (tagTexts cs).Pairwise fun text later => EndsWithin later text

theorem sources_of_readRoot? {cs : List Char} {root : Element} (h : readRoot? cs = some root) :
    Sources cs root where
  begins := by
    have hbegins := begins_of_readRoot? h
    rwa [Element.openings_eq, List.forall₂_map_left_iff] at hbegins
  suffix _ htext := suffix_of_mem_tagTexts htext
  later := pairwise_elementTexts _

/-- The text from the start tag of an occurrence on, in the document with this root. -/
def WrittenAt (cs : List Char) (root : Element) (o : Occurrence) (text : List Char) : Prop :=
  (o, text) ∈ root.occurrences.zip (tagTexts cs)

theorem Sources.suffix_of_writtenAt {cs : List Char} {root : Element} (h : Sources cs root)
    {o : Occurrence} {text : List Char} (hwritten : WrittenAt cs root o text) : text <:+ cs :=
  h.suffix text (List.of_mem_zip hwritten).2

theorem exists_mem_of_forall₂ {α β : Type} {R : α → β → Prop} {as : List α} {bs : List β}
    (h : List.Forall₂ R as bs) {a : α} (ha : a ∈ as) : ∃ b ∈ bs, R a b := by
  induction h with
  | nil => cases ha
  | cons hfirst _ ih =>
    rcases List.mem_cons.mp ha with rfl | ha
    · exact ⟨_, List.mem_cons_self, hfirst⟩
    · obtain ⟨b, hb, hrel⟩ := ih ha
      exact ⟨b, List.mem_cons_of_mem _ hb, hrel⟩

/-- Of occurrences in document order, with the texts from their start tags on, the text of an
element inside one of them is an end of its text. -/
theorem exists_text_of_inOrder {found : List Occurrence} {texts : List (List Char)}
    (hbegins : List.Forall₂ (fun o text => Begins o.opening text) found texts)
    (horder : InOrder found) (hlater : texts.Pairwise fun text later => EndsWithin later text)
    {o : Occurrence} {text : List Char} (hmem : (o, text) ∈ found.zip texts) {inner : Element}
    (hinner : .element inner ∈ o.element.items) :
    ∃ later, later <:+ text ∧ '<' :: inner.tag.toList <+: later := by
  induction hbegins with
  | nil => cases hmem
  | @cons first head found texts hfirst hrest ih =>
    obtain ⟨hhead, hlater⟩ := List.pairwise_cons.mp hlater
    rcases List.mem_cons.mp hmem with heq | hmem
    · cases heq
      obtain ⟨o', ho', rfl⟩ := horder.1 inner hinner
      obtain ⟨later, hmem, hbegins⟩ := exists_mem_of_forall₂ hrest ho'
      exact ⟨later, (hhead later hmem).1, hbegins.isPrefix⟩
    · exact ih horder.2 hlater hmem

theorem Sources.exists_text_of_mem_items {cs : List Char} {root : Element} (h : Sources cs root)
    {o : Occurrence} {text : List Char} (hwritten : WrittenAt cs root o text) {inner : Element}
    (hinner : .element inner ∈ o.element.items) :
    ∃ later, later <:+ text ∧ '<' :: inner.tag.toList <+: later :=
  exists_text_of_inOrder h.begins root.inOrder_occurrences h.later hwritten hinner

end BehaviorIndex.Markup
