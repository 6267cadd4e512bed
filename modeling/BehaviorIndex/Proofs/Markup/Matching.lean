import BehaviorIndex.Proofs.Markup.Locality
import BehaviorIndex.Proofs.Markup.Sources

/-!
# Which end tag closes which element

The reader compares an end tag with what it remembers of the innermost open element, and the names
of an element and of its end tag are compared once more when the document is folded into a tree.
`Nested` tells the nesting of elements without any memory: an element is a tag that ends in `/>`,
or it has items of its own and ends at the end tag behind them. The parameter `Closes` says which
end tags may do so.

**Theorem (`mismatch_of_parse`).** A mismatched tag is reported only for an element whose name is
longer than what is remembered of it. The end tag then carries exactly the remembered part, and the
line is that of its `</`. So there is no such report for a document with names that are remembered
in full, and in a document that is accepted every end tag carries the name of its element.

What the reader does is a derivation of `Nested` in which every end tag carries the remembered part
of a name (`nested_of_readContent?`). An element without a fault has no stray end tag, so the
derivation is one with equal names (`Nested.exact`); the first fault of a document leads to the
element that has it (`Nested.exists_closedAt`).
-/

namespace BehaviorIndex.Markup

/-! ## Content -/

/-- Which end tags close which elements: `Closes tag name here stray` allows the end tag `name` at
the start of `here` for an element called `tag`, for which `stray` is noted. -/
abbrev Closing := List Char → List Char → List Char → Option StrayEnd → Prop

/-- The text from `cs` to `rest` is the content of an element, with these items. -/
inductive Nested (Closes : Closing) : List Char → List Item → List Char → Prop
  | nil {cs : List Char} : Nested Closes cs [] cs
  | text {cs mid rest t : List Char} {items : List Item} (h : token? cs = some (.text t, mid))
      (hitems : Nested Closes mid items rest) :
      Nested Closes cs (.text (String.ofList t) :: items) rest
  | silent {cs mid rest : List Char} {items : List Item} (h : token? cs = some (.silent, mid))
      (hitems : Nested Closes mid items rest) : Nested Closes cs items rest
  | empty {cs mid rest : List Char} {t : StartTag} {items : List Item}
      (h : token? cs = some (.start t, mid)) (hself : t.selfClosing = true)
      (hitems : Nested Closes mid items rest) :
      Nested Closes cs (.element t.toElement :: items) rest
  | paired {cs body close mid rest name : List Char} {t : StartTag} {inner items : List Item}
      {stray : Option StrayEnd} (h : token? cs = some (.start t, body))
      (hself : t.selfClosing = false) (hinner : Nested Closes body inner close)
      (hclose : token? close = some (.close name, mid)) (hname : Closes t.tag name close stray)
      (hitems : Nested Closes mid items rest) :
      Nested Closes cs
        (.element (.mk (String.ofList t.tag) t.attributes inner stray) :: items) rest

namespace Nested

variable {Closes Closes' : Closing} {cs rest : List Char} {items : List Item}

theorem suffix (h : Nested Closes cs items rest) : rest <:+ cs := by
  induction h with
  | nil => exact List.suffix_rfl
  | text h _ ih => exact ih.trans (suffix_of_token? h)
  | silent h _ ih => exact ih.trans (suffix_of_token? h)
  | empty h _ _ ih => exact ih.trans (suffix_of_token? h)
  | @paired cs body close mid rest _ _ _ _ _ h _ _ hclose _ _ ihinner ih =>
    calc rest <:+ mid := ih
      _ <:+ close := suffix_of_token? hclose
      _ <:+ body := ihinner
      _ <:+ cs := suffix_of_token? h

theorem mono (hmono : ∀ tag name here stray, Closes tag name here stray →
    Closes' tag name here stray) (h : Nested Closes cs items rest) :
    Nested Closes' cs items rest := by
  induction h with
  | nil => exact .nil
  | text h _ ih => exact .text h ih
  | silent h _ ih => exact .silent h ih
  | empty h hself _ ih => exact .empty h hself ih
  | paired h hself _ hclose hname _ ihinner ih =>
    exact .paired h hself ihinner hclose (hmono _ _ _ _ hname) ih

/-- The start tags behind the content of an element come after those inside it. -/
theorem tagTextsFrom_suffix (h : Nested Closes cs items rest) (depth : Nat) :
    tagTextsFrom depth rest <:+ tagTextsFrom depth cs := by
  induction h generalizing depth with
  | nil => exact List.suffix_rfl
  | text h _ ih => rw [tagTextsFrom_text h]; exact ih depth
  | silent h _ ih => rw [tagTextsFrom_silent h]; exact ih depth
  | empty h hself _ ih =>
    rw [tagTextsFrom_start h, if_pos hself]
    exact (ih depth).trans (List.suffix_cons _ _)
  | @paired cs body close mid rest _ _ _ _ _ h hself _ hclose _ _ ihinner ih =>
    rw [tagTextsFrom_start h, if_neg (by simp [hself])]
    calc tagTextsFrom depth rest <:+ tagTextsFrom depth mid := ih depth
      _ = tagTextsFrom (depth + 1) close := (tagTextsFrom_close_succ hclose).symm
      _ <:+ tagTextsFrom (depth + 1) body := ihinner (depth + 1)
      _ <:+ cs :: tagTextsFrom (depth + 1) body := List.suffix_cons _ _

end Nested

/-! ## What the reader reads -/

/-- The end tag carries what can be remembered of the name, and is noted if it is not all of it. -/
def Remembered (lineEnds : Nat) : Closing := fun tag name here stray =>
  name = tag.take longest ∧ stray = strayEnd? lineEnds tag name here

theorem remembered_of_closedBy {lineEnds used : Nat} {t : StartTag} {name here : List Char}
    (h : (Frame.ofStart used t).closedBy name = true) :
    Remembered lineEnds t.tag name here (strayEnd? lineEnds t.tag name here) := by
  refine ⟨?_, rfl⟩
  simp only [Frame.closedBy, Frame.ofStart, Bool.and_eq_true, Bool.not_eq_true',
    List.isEmpty_eq_false_iff, beq_iff_eq] at h
  obtain ⟨hne, rfl⟩ := h
  rw [remember] at hne ⊢
  split at hne
  · exact absurd rfl hne
  · next hroom => rw [if_neg hroom]

/-- Reading goes on behind an element that was closed inside the frames `outer`. -/
def resume? (lineEnds : Nat) (e : Element) (outer : List Frame) (rest : List Char) :
    Option (Element × List Char) :=
  match outer with
  | [] => some (e, rest)
  | f :: outer => readContent? lineEnds (f.add (.element e)) outer rest

theorem readContent?_closed {lineEnds : Nat} {top : Frame} {outer : List Frame}
    {cs rest name : List Char} (h : token? cs = some (.close name, rest)) :
    readContent? lineEnds top outer cs =
      if top.closedBy name then
        resume? lineEnds (top.toElement (strayEnd? lineEnds top.tag name cs)) outer rest
      else none := by
  rw [readContent?_close h]
  cases outer <;> rfl

/-- **Reading content.** The reader takes the content of the innermost open element, and an end tag
that closes it. -/
theorem nested_of_readContent? {lineEnds : Nat} {top : Frame} {outer : List Frame}
    {cs rest : List Char} {root : Element}
    (h : readContent? lineEnds top outer cs = some (root, rest)) :
    ∃ items close name mid, Nested (Remembered lineEnds) cs items close ∧
      token? close = some (.close name, mid) ∧ top.closedBy name = true ∧
      resume? lineEnds ((top.addAll items).toElement (strayEnd? lineEnds top.tag name close))
        outer mid = some (root, rest) := by
  cases htoken : token? cs with
  | none =>
    rw [readContent?_eq_none htoken] at h
    cases h
  | some read =>
    obtain ⟨token, behind⟩ := read
    have hshorter := length_of_token? htoken
    cases token with
    | text t =>
      rw [readContent?_text htoken] at h
      obtain ⟨items, close, name, mid, hitems, hclose, hclosed, hresume⟩ :=
        nested_of_readContent? h
      rw [← Frame.addAll_cons] at hresume
      exact ⟨_, close, name, mid, .text htoken hitems, hclose, hclosed, hresume⟩
    | silent =>
      rw [readContent?_silent htoken] at h
      obtain ⟨items, close, name, mid, hitems, hend⟩ := nested_of_readContent? h
      exact ⟨items, close, name, mid, .silent htoken hitems, hend⟩
    | start t =>
      rw [readContent?_start htoken] at h
      split at h
      · next hself =>
        obtain ⟨items, close, name, mid, hitems, hclose, hclosed, hresume⟩ :=
          nested_of_readContent? h
        rw [← Frame.addAll_cons] at hresume
        exact ⟨_, close, name, mid, .empty htoken hself hitems, hclose, hclosed, hresume⟩
      · next hself =>
        -- The inner element is read to its end, then what follows it.
        obtain ⟨inner, innerClose, innerName, innerMid, hinner, hinnerClose, hinnerClosed, h⟩ :=
          nested_of_readContent? h
        have hshorter' : innerMid.length < cs.length := by
          have := length_of_token? hinnerClose
          have := hinner.suffix.length_le
          omega
        obtain ⟨items, close, name, mid, hitems, hclose, hclosed, hresume⟩ :=
          nested_of_readContent? h
        rw [← Frame.addAll_cons] at hresume
        refine ⟨_, close, name, mid, ?_, hclose, hclosed, hresume⟩
        have helement : ∀ stray, ((Frame.ofStart top.used t).addAll inner).toElement stray =
            .mk (String.ofList t.tag) t.attributes inner stray := by
          simp [Frame.toElement, Frame.addAll, Frame.ofStart]
        rw [helement]
        exact .paired htoken (by simpa using hself) hinner hinnerClose
          (remembered_of_closedBy hinnerClosed) hitems
    | close name =>
      rw [readContent?_closed htoken] at h
      split at h
      · next hclosed => exact ⟨[], cs, name, behind, .nil, htoken, hclosed, h⟩
      · cases h
termination_by cs.length

/-- The element at the start of a text: one tag, or a start tag, content, and an end tag. -/
theorem content_of_element? {lineEnds : Nat} {cs rest : List Char} {root : Element}
    (h : element? lineEnds cs = some (root, rest)) :
    ∃ t body, token? cs = some (.start t, body) ∧
      elementTexts cs = cs :: (if t.selfClosing then [] else tagTextsFrom 0 body) ∧
      (t.selfClosing = true ∧ root = t.toElement ∧ rest = body ∨
        t.selfClosing = false ∧ ∃ items close name stray,
          Nested (Remembered lineEnds) body items close ∧
          token? close = some (.close name, rest) ∧ Remembered lineEnds t.tag name close stray ∧
          root = .mk (String.ofList t.tag) t.attributes items stray) := by
  unfold element? at h
  split at h
  · next cs =>
    split at h
    · cases h
    · next t body hstart =>
      refine ⟨t, body, token?_of_startTag? hstart, elementTexts_of_startTag? hstart, ?_⟩
      split at h
      · next hself =>
        cases h
        exact .inl ⟨hself, rfl, rfl⟩
      · next hself =>
        obtain ⟨items, close, name, mid, hitems, hclose, hclosed, hresume⟩ :=
          nested_of_readContent? h
        cases hresume
        refine .inr ⟨by simpa using hself, items, close, name, _, hitems, hclose,
          remembered_of_closedBy hclosed, ?_⟩
        simp [Frame.toElement, Frame.addAll, Frame.ofStart]
  · cases h

theorem element?_of_readRoot? {cs : List Char} {root : Element} (h : readRoot? cs = some root) :
    ∃ rest, element? (cs.count '\n') (skipProlog (skipMark cs)) = some (root, rest) ∧
      skipAsides rest = [] := by
  rw [readRoot?] at h
  split at h
  · next root' rest hread =>
    split at h
    · next hrest =>
      cases h
      exact ⟨rest, hread, List.isEmpty_iff.mp hrest⟩
    · cases h
  · cases h

/-! ## Elements without a fault -/

/-- The end tag carries the name of its element. -/
def SameName : Closing := fun tag name _ _ => name = tag

theorem sameName_of_remembered {lineEnds : Nat} {tag name here : List Char}
    (h : Remembered lineEnds tag name here none) : name = tag := by
  have hstray := h.2
  rw [strayEnd?] at hstray
  split at hstray
  · assumption
  · cases hstray

theorem fault?_mk_eq_none {depth : Nat} {tag : String} {as : Attributes} {items : List Item}
    {stray : Option StrayEnd} (h : (Element.mk tag as items stray).fault? depth = none) :
    faultOfItems (depth + 1) items = none ∧ stray = none := by
  rw [Element.fault?] at h
  split at h
  · cases h
  · simpa using h

/-- Content without a fault has end tags that carry the names of their elements. -/
theorem Nested.exact {lineEnds : Nat} {cs rest : List Char} {items : List Item}
    (h : Nested (Remembered lineEnds) cs items rest) {depth : Nat}
    (hfault : faultOfItems depth items = none) : Nested SameName cs items rest := by
  induction h generalizing depth with
  | nil => exact .nil
  | text h _ ih => exact .text h (ih hfault)
  | silent h _ ih => exact .silent h (ih hfault)
  | empty h hself _ ih =>
    rw [faultOfItems, Option.or_eq_none_iff] at hfault
    exact .empty h hself (ih hfault.2)
  | paired h hself _ hclose hname _ ihinner ih =>
    rw [faultOfItems, Option.or_eq_none_iff] at hfault
    obtain ⟨hinner, rfl⟩ := fault?_mk_eq_none hfault.1
    exact .paired h hself (ihinner hinner) hclose (sameName_of_remembered hname) (ih hfault.2)

theorem content_exact_of_element? {lineEnds : Nat} {cs rest : List Char} {root : Element}
    (h : element? lineEnds cs = some (root, rest)) {depth : Nat}
    (hfault : root.fault? depth = none) : Nested SameName cs [.element root] rest := by
  obtain ⟨t, body, hstart, -, hcase⟩ := content_of_element? h
  obtain ⟨hself, rfl, rfl⟩ | ⟨hself, items, close, name, stray, hitems, hclose, hname, rfl⟩ := hcase
  · exact .empty hstart hself .nil
  · obtain ⟨hinner, rfl⟩ := fault?_mk_eq_none hfault
    exact .paired hstart hself (hitems.exact hinner) hclose (sameName_of_remembered hname) .nil

/-! ## The first fault -/

/-- The element that begins at `opening` is called `tag`, and the end tag `name` at the start of
`close` closes it. -/
def ClosedAt (opening tag close name : List Char) : Prop :=
  ∃ t body items rest, token? opening = some (.start t, body) ∧ t.selfClosing = false ∧
    t.tag = tag ∧ Nested (fun _ _ _ _ => True) body items close ∧
    token? close = some (.close name, rest)

/-- A mismatched tag is that of the element itself or of one inside it. -/
theorem fault?_mk_eq_mismatchedTag {depth : Nat} {tag expected : String} {as : Attributes}
    {items : List Item} {stray : Option StrayEnd} {found : StrayEnd}
    (h : (Element.mk tag as items stray).fault? depth = some (.mismatchedTag expected found)) :
    faultOfItems (depth + 1) items = some (.mismatchedTag expected found) ∨
      expected = tag ∧ stray = some found := by
  rw [Element.fault?] at h
  split at h
  · cases h
  · rcases Option.or_eq_some_iff.mp h with h | ⟨-, h⟩
    · exact .inl h
    · obtain ⟨s, hs, hfault⟩ := Option.map_eq_some_iff.mp h
      cases hfault
      exact .inr ⟨rfl, hs⟩

theorem StartTag.fault?_toElement_ne_mismatchedTag (t : StartTag) (depth : Nat) (expected : String)
    (found : StrayEnd) : t.toElement.fault? depth ≠ some (.mismatchedTag expected found) := by
  intro h
  rcases fault?_mk_eq_mismatchedTag h with h | ⟨-, h⟩
  · rw [faultOfItems] at h
    cases h
  · cases h

/-- **The first fault.** A mismatched tag that is reported for the content of an element is that of
an element whose start tag stands in the content. -/
theorem Nested.exists_closedAt {lineEnds : Nat} {cs rest : List Char} {items : List Item}
    (h : Nested (Remembered lineEnds) cs items rest) {level depth : Nat} {expected : String}
    {found : StrayEnd} (hfault : faultOfItems level items = some (.mismatchedTag expected found)) :
    ∃ opening ∈ tagTextsFrom depth cs, ∃ close name, close <:+ cs ∧
      ClosedAt opening expected.toList close name ∧
      Remembered lineEnds expected.toList name close (some found) := by
  induction h generalizing level depth with
  | nil =>
    rw [faultOfItems] at hfault
    cases hfault
  | text h _ ih =>
    obtain ⟨opening, hmem, close, name, hsuffix, hclosed⟩ := ih hfault
    rw [tagTextsFrom_text h]
    exact ⟨opening, hmem, close, name, hsuffix.trans (suffix_of_token? h), hclosed⟩
  | silent h _ ih =>
    obtain ⟨opening, hmem, close, name, hsuffix, hclosed⟩ := ih hfault
    rw [tagTextsFrom_silent h]
    exact ⟨opening, hmem, close, name, hsuffix.trans (suffix_of_token? h), hclosed⟩
  | @empty cs mid rest t items h hself hitems ih =>
    rw [faultOfItems] at hfault
    rcases Option.or_eq_some_iff.mp hfault with hown | ⟨-, hfault⟩
    · exact absurd hown (t.fault?_toElement_ne_mismatchedTag _ _ _)
    · obtain ⟨opening, hmem, close, name, hsuffix, hclosed⟩ := ih hfault
      rw [tagTextsFrom_start h, if_pos hself]
      exact ⟨opening, List.mem_cons_of_mem _ hmem, close, name,
        hsuffix.trans (suffix_of_token? h), hclosed⟩
  | @paired cs body close mid rest name t inner items stray h hself hinner hclose hname hitems
      ihinner ih =>
    have hbody := suffix_of_token? h
    have hmid : mid <:+ cs := (suffix_of_token? hclose).trans (hinner.suffix.trans hbody)
    rw [tagTextsFrom_start h, if_neg (by simp [hself])]
    rw [faultOfItems] at hfault
    rcases Option.or_eq_some_iff.mp hfault with hown | ⟨-, hfault⟩
    · rcases fault?_mk_eq_mismatchedTag hown with hfault | ⟨rfl, rfl⟩
      · obtain ⟨opening, hmem, close', name', hsuffix, hclosed⟩ := ihinner hfault
        exact ⟨opening, List.mem_cons_of_mem _ hmem, close', name', hsuffix.trans hbody, hclosed⟩
      · rw [String.toList_ofList]
        exact ⟨cs, List.mem_cons_self, close, name, hinner.suffix.trans hbody,
          ⟨t, body, inner, mid, h, hself, rfl, hinner.mono fun _ _ _ _ _ => trivial, hclose⟩, hname⟩
    · obtain ⟨opening, hmem, close', name', hsuffix, hclosed⟩ := ih hfault
      rw [← tagTextsFrom_close_succ hclose] at hmem
      exact ⟨opening, List.mem_cons_of_mem _ ((hinner.tagTextsFrom_suffix _).subset hmem), close',
        name', hsuffix.trans hmid, hclosed⟩

theorem exists_closedAt_of_element? {lineEnds : Nat} {cs rest : List Char} {root : Element}
    (h : element? lineEnds cs = some (root, rest)) {level : Nat} {expected : String}
    {found : StrayEnd} (hfault : root.fault? level = some (.mismatchedTag expected found)) :
    ∃ opening ∈ elementTexts cs, ∃ close name, close <:+ cs ∧
      ClosedAt opening expected.toList close name ∧
      Remembered lineEnds expected.toList name close (some found) := by
  obtain ⟨t, body, hstart, htexts, hcase⟩ := content_of_element? h
  have hbody := suffix_of_token? hstart
  rw [htexts]
  obtain ⟨-, rfl, -⟩ | ⟨hself, items, close, name, stray, hitems, hclose, hname, rfl⟩ := hcase
  · exact absurd hfault (t.fault?_toElement_ne_mismatchedTag _ _ _)
  · rw [if_neg (by simp [hself])]
    rcases fault?_mk_eq_mismatchedTag hfault with hfault | ⟨rfl, rfl⟩
    · obtain ⟨opening, hmem, close', name', hsuffix, hclosed⟩ := hitems.exists_closedAt hfault
      exact ⟨opening, List.mem_cons_of_mem _ hmem, close', name', hsuffix.trans hbody, hclosed⟩
    · rw [String.toList_ofList]
      exact ⟨cs, List.mem_cons_self, close, name, hitems.suffix.trans hbody,
        ⟨t, body, items, rest, hstart, hself, rfl, hitems.mono fun _ _ _ _ _ => trivial, hclose⟩,
        hname⟩

/-! ## Documents -/

/-- The names in the start tags of a document. -/
def tagNames (cs : List Char) : List (List Char) :=
  (tagTexts cs).map fun text => (text.drop 1).takeWhile isNameChar

theorem eq_takeWhile_of_tagName? {cs name rest : List Char} (h : tagName? cs = some (name, rest)) :
    name = cs.takeWhile isNameChar := by
  cases cs with
  | nil => cases h
  | cons c cs =>
    rw [tagName?] at h
    split at h
    · next hc =>
      cases h
      rw [List.takeWhile_cons_of_pos hc]
    · cases h

theorem ClosedAt.mem_tagNames {cs opening tag close name : List Char}
    (h : ClosedAt opening tag close name) (hmem : opening ∈ tagTexts cs) : tag ∈ tagNames cs := by
  obtain ⟨t, body, items, rest, htoken, -, rfl, -⟩ := h
  obtain ⟨behind, rfl, hstart⟩ := startTag?_of_token? htoken
  obtain ⟨_, htag, -⟩ := startTag?_eq_some hstart
  exact List.mem_map.mpr ⟨_, hmem, (eq_takeWhile_of_tagName? htag).symm⟩

/-- A stray end tag carries a part of the name, and its line is counted up to its `</`. -/
theorem Remembered.stray {before close tag name : List Char} {found : StrayEnd}
    (h : Remembered ((before ++ close).count '\n') tag name close (some found)) :
    longest < tag.length ∧ found.found.toList = tag.take longest ∧ found.found.toList = name ∧
      found.line = before.count '\n' + 1 := by
  obtain ⟨rfl, hstray⟩ := h
  rw [strayEnd?] at hstray
  split at hstray
  · cases hstray
  · next hne =>
    cases hstray
    refine ⟨?_, by simp, by simp, ?_⟩
    · by_contra hshort
      exact hne (List.take_of_length_le (Nat.le_of_not_lt hshort))
    · rw [lineOf, List.count_append, Nat.add_sub_cancel]

/-- The fault behind a report of a mismatched tag. -/
theorem exists_fault_of_parse {text : String} {expected found : String} {line : Nat}
    (h : parse text = .error (.mismatchedTag expected found line)) :
    ∃ root, readRoot? text.toList = some root ∧
      root.fault? 1 = some (.mismatchedTag expected ⟨found, line⟩) := by
  rw [parse] at h
  split at h
  · next root hroot =>
    split at h
    · next fault hfault =>
      cases fault with
      | mismatchedTag tag stray =>
        cases h
        exact ⟨root, hroot, hfault⟩
      | nestingTooDeep => cases h
    · cases h
  · split at h <;> cases h

/-- What a report of a mismatched tag says of a text. -/
structure Mismatch (cs tag name : List Char) (line : Nat) : Prop where
  long : longest < tag.length
  cut : name = tag.take longest
  place : ∃ opening ∈ tagTexts cs, ∃ before close, cs = before ++ close ∧
    ClosedAt opening tag close name ∧ line = before.count '\n' + 1

theorem mismatch_of_mismatchedTag {text : String} {expected found : String} {line : Nat}
    (h : parse text = .error (.mismatchedTag expected found line)) :
    Mismatch text.toList expected.toList found.toList line := by
  obtain ⟨root, hroot, hfault⟩ := exists_fault_of_parse h
  obtain ⟨rest, hread, -⟩ := element?_of_readRoot? hroot
  obtain ⟨opening, hmem, close, name, hsuffix, hclosed, hname⟩ :=
    exists_closedAt_of_element? hread hfault
  obtain ⟨before, hbefore⟩ : close <:+ text.toList :=
    calc close <:+ skipProlog (skipMark text.toList) := hsuffix
      _ <:+ skipMark text.toList := suffix_skipProlog _
      _ <:+ text.toList := (passes_skipMark _).suffix
  rw [← hbefore] at hname
  obtain ⟨hlong, hcut, rfl, hline⟩ := hname.stray
  exact ⟨hlong, hcut, opening, hmem, before, close, hbefore.symm, hclosed, hline⟩

/-- Every text has a tree or one of three errors. -/
theorem parse_cases (text : String) :
    (∃ node, parse text = .ok node) ∨ parse text = .error .noDocument ∨
      parse text = .error (.nestingTooDeep maxNesting) ∨
      ∃ expected found line, parse text = .error (.mismatchedTag expected found line) := by
  rw [parse]
  split
  · next root _ =>
    split
    · next fault _ =>
      cases fault with
      | mismatchedTag tag stray => exact .inr (.inr (.inr ⟨tag, stray.found, stray.line, rfl⟩))
      | nestingTooDeep => exact .inr (.inr (.inl rfl))
    · exact .inl ⟨root.toNode, rfl⟩
  · split
    · exact .inr (.inr (.inl rfl))
    · exact .inr (.inl rfl)

/-- **Mismatched tags.** A mismatched tag is reported only for a name that is too long to be
remembered: the end tag carries the remembered part, and the line is that of its `</`. A text whose
tags have shorter names has a tree, is no document, or is nested too deeply. If a text has a tree,
then each of its elements was closed by an end tag with its own name, or is a tag that ends in
`/>`. -/
theorem mismatch_of_parse (text : String) :
    (∀ expected found line, parse text = .error (.mismatchedTag expected found line) →
      Mismatch text.toList expected.toList found.toList line) ∧
    ((∀ name ∈ tagNames text.toList, name.length ≤ longest) →
      (∃ node, parse text = .ok node) ∨ parse text = .error .noDocument ∨
        parse text = .error (.nestingTooDeep maxNesting)) ∧
    ∀ node, parse text = .ok node → ∃ root rest, root.toNode = node ∧
      Nested SameName (skipProlog (skipMark text.toList)) [.element root] rest ∧
      skipAsides rest = [] := by
  refine ⟨fun _ _ _ => mismatch_of_mismatchedTag, fun hshort => ?_, fun node hnode => ?_⟩
  · obtain hok | hno | hdeep | ⟨expected, found, line, hmismatch⟩ := parse_cases text
    · exact .inl hok
    · exact .inr (.inl hno)
    · exact .inr (.inr hdeep)
    · have hreport := mismatch_of_mismatchedTag hmismatch
      obtain ⟨opening, hmem, _, _, -, hclosed, -⟩ := hreport.place
      exact absurd hreport.long (Nat.not_lt.mpr (hshort _ (hclosed.mem_tagNames hmem)))
  · obtain ⟨root, hroot, hsound, rfl⟩ := exists_root_of_parse hnode
    obtain ⟨rest, hread, hrest⟩ := element?_of_readRoot? hroot
    exact ⟨root, rest, rfl, content_exact_of_element? hread hsound.fault, hrest⟩

/-- A name of 256 letters, closed on the second line by its first 255. -/
def overlong : List Char :=
  "<".toList ++ List.replicate 256 'n' ++ ">\n</".toList ++ List.replicate 255 'n' ++ ">".toList

theorem mismatch_of_parse_overlong :
    parse (String.ofList overlong) = .error (.mismatchedTag (String.ofList (.replicate 256 'n'))
        (String.ofList (.replicate 255 'n')) 2) ∧
      Mismatch overlong (.replicate 256 'n') (.replicate 255 'n') 2 := by
  have hfault : (readRoot? overlong).bind (·.fault? 1) =
      some (.mismatchedTag (String.ofList (.replicate 256 'n'))
        ⟨String.ofList (.replicate 255 'n'), 2⟩) := by
    decide +kernel
  obtain ⟨root, hroot, hrootFault⟩ := Option.bind_eq_some_iff.mp hfault
  have hparse : parse (String.ofList overlong) = .error (.mismatchedTag
      (String.ofList (.replicate 256 'n')) (String.ofList (.replicate 255 'n')) 2) := by
    rw [parse, String.toList_ofList, hroot]
    simp only [hrootFault]
    rfl
  have hmismatch := (mismatch_of_parse _).1 _ _ _ hparse
  rw [String.toList_ofList, String.toList_ofList, String.toList_ofList] at hmismatch
  exact ⟨hparse, hmismatch⟩

end BehaviorIndex.Markup
