import BehaviorIndex.Proofs.Markup.Printer
import BehaviorIndex.Proofs.Markup.Prolog
import BehaviorIndex.Proofs.Markup.Reader

/-!
# Reading undoes writing

**Theorem (`parse_print`).** The text of an element that can be written is a document, and its tree
is the node of the element.

What is read of a written element is not the element itself, because a text comes back in pieces:
each reference is a token, and so is each run of plain characters between references, while texts
that stand side by side run together. But it *restores* the element (`Restores`): it has the same
nodes, the same joined text, and no fault.

The induction is on the items of an element. Its invariant `ReadBack` carries a text that was
written before the items and has not been read yet, so that neighbouring texts are taken as one.
-/

namespace BehaviorIndex.Markup

/-! ## Tokens of a written element -/

theorem token?_close {tag : String} (htag : IsTagName tag) (rest : List Char) :
    token? ('<' :: '/' :: (tag.toList ++ '>' :: rest)) = some (.close tag.toList, rest) := by
  rw [token?, endTag?_written htag]
  rfl

theorem token?_start {tag : String} {as : Attributes} (htag : IsTagName tag)
    (has : ∀ a ∈ as, IsName a.1) (rest : List Char) :
    token? ('<' :: (tag.toList ++ (as.flatMap writtenAttribute ++ '>' :: rest))) =
      some (.start ⟨tag.toList, as, false⟩, rest) := by
  obtain ⟨c, cs, hcs⟩ := List.exists_cons_of_ne_nil htag.nonempty
  have hc : isNameChar c = true := htag.chars c (hcs ▸ List.mem_cons_self)
  rw [token?, startTag?_written htag has]
  · rfl
  all_goals
    rw [hcs]
    rintro _ ⟨⟩
    exact absurd hc (by decide)

theorem token?_referenceName {c : Char} {name : List Char} (h : referenceName? c = some name)
    (rest : List Char) : token? ('&' :: (name ++ ';' :: rest)) = some (.text [c], rest) := by
  have hdecode : decode ('&' :: (name ++ [';'])) = [c] := by
    rw [decode_referenceName h [], decode]
  rw [token?, reference?_referenceName h]
  exact congrArg (fun cs => some (Token.text cs, rest)) hdecode

theorem mem_takeWhile_of_passOne {c : Char} {cs : List Char}
    (h : c ∈ (passOne cs).takeWhile (!isMarkup ·)) : c ∈ cs.takeWhile (!isMarkup ·) := by
  cases cs with
  | nil => exact h
  | cons d cs =>
    rw [passOne] at h
    by_cases hd : isMarkup d = true
    · rwa [if_pos hd] at h
    · rw [if_neg hd] at h
      rw [List.takeWhile_cons_of_pos (by simpa using hd)]
      exact List.mem_cons_of_mem _ h

/-- A run of character data without `>` is accepted. -/
theorem strayClose?_eq_none {cs : List Char} (begun : Bool)
    (h : '>' ∉ cs.takeWhile (!isMarkup ·)) : strayClose? begun cs = none := by
  have hcons : ∀ c cs, isMarkup c = false →
      (c :: cs).takeWhile (!isMarkup ·) = c :: cs.takeWhile (!isMarkup ·) :=
    fun c cs hc => List.takeWhile_cons_of_pos (by simp [hc])
  fun_induction strayClose? begun cs with
  | case1 => rfl
  | case2 | case3 => exact absurd (by simp [List.takeWhile, isMarkup]) h
  | case4 _ cs _ ih =>
    rw [hcons ']' _ rfl, hcons ']' _ rfl] at h
    refine ih fun hm => h ?_
    exact List.mem_cons_of_mem _ (List.mem_cons_of_mem _ (mem_takeWhile_of_passOne hm))
  | case5 _ cs _ _ ih =>
    rw [hcons ']' _ rfl] at h
    exact ih fun hm => h (List.mem_cons_of_mem _ (mem_takeWhile_of_passOne hm))
  | case6 => rfl
  | case7 _ c cs _ _ _ hc ih =>
    rw [hcons c cs (by simpa using hc)] at h
    exact ih fun hm => h (List.mem_cons_of_mem _ hm)

/-- A run of plain characters is one text. -/
theorem token?_plain {run rest : List Char} (hne : run ≠ [])
    (hrun : ∀ c ∈ run, referenceName? c = none) (hrest : Stops (!isMarkup ·) rest) :
    token? (run ++ rest) = some (.text run, rest) := by
  have hmarkup : ∀ c ∈ run, (!isMarkup c) = true := fun c hc => by
    rw [not_isMarkup_of_referenceName?_eq_none (hrun c hc)]
    rfl
  have htake := takeWhile_append_of_stops hmarkup hrest
  have hdrop := dropWhile_append_of_stops hmarkup hrest
  have hstray : strayClose? false (run ++ rest) = none := by
    refine strayClose?_eq_none false ?_
    rw [htake]
    exact fun hm => (ne_of_referenceName?_eq_none (hrun _ hm)).2.2.1 rfl
  obtain ⟨c, cs, rfl⟩ := List.exists_cons_of_ne_nil hne
  obtain ⟨hamp, hlt, -⟩ := ne_of_referenceName?_eq_none (hrun c List.mem_cons_self)
  have htoken : token? (c :: (cs ++ rest)) = characterData? (c :: (cs ++ rest)) := by
    rw [token?] <;> simp [hamp, hlt]
  rw [List.cons_append] at hstray htake hdrop ⊢
  rw [htoken, characterData?, hstray, htake, hdrop]

/-! ## What is read of items -/

theorem ownText_append (items more : List Item) :
    ownText (items ++ more) = ownText items ++ ownText more := by
  induction items with
  | nil => simp [ownText]
  | cons item items ih => cases item <;> simp [ownText, ih, String.append_assoc]

theorem nodesOfItems_append (items more : List Item) :
    nodesOfItems (items ++ more) = nodesOfItems items ++ nodesOfItems more := by
  induction items with
  | nil => simp [nodesOfItems]
  | cons item items ih => cases item <;> simp [nodesOfItems, ih]

theorem faultOfItems_append (depth : Nat) (items more : List Item) :
    faultOfItems depth (items ++ more) =
      (faultOfItems depth items).or (faultOfItems depth more) := by
  induction items with
  | nil => simp [faultOfItems]
  | cons item items ih => cases item <;> simp [faultOfItems, ih, Option.or_assoc]

/-- The items that were read have no fault, and stand for the same nodes and the same text as the
items that were written. Texts may be cut in other places. -/
structure Restores (depth : Nat) (read written : List Item) : Prop where
  text : ownText read = ownText written
  nodes : nodesOfItems read = nodesOfItems written
  sound : faultOfItems depth read = none

theorem Restores.append {depth : Nat} {read read' written written' : List Item}
    (h : Restores depth read written) (h' : Restores depth read' written') :
    Restores depth (read ++ read') (written ++ written') := by
  refine ⟨?_, ?_, ?_⟩
  · rw [ownText_append, ownText_append, h.text, h'.text]
  · rw [nodesOfItems_append, nodesOfItems_append, h.nodes, h'.nodes]
  · rw [faultOfItems_append, h.sound, h'.sound]
    rfl

theorem Restores.text_cons {depth : Nat} {texts : List Item} {ds : List Char}
    (h : Restores depth texts [.text (String.ofList ds)]) (cs : List Char) :
    Restores depth (.text (String.ofList cs) :: texts) [.text (String.ofList (cs ++ ds))] := by
  refine ⟨?_, h.nodes, h.sound⟩
  rw [ownText, h.text]
  simp [ownText, String.ofList_append]

theorem Restores.text_append {depth : Nat} {read : List Item} {cs ds : List Char}
    {items : List Item}
    (h : Restores depth read (.text (String.ofList (cs ++ ds)) :: items)) :
    Restores depth read (.text (String.ofList cs) :: .text (String.ofList ds) :: items) := by
  refine ⟨h.text.trans ?_, h.nodes, h.sound⟩
  simp [ownText, String.ofList_append, String.append_assoc]

theorem Restores.of_empty_text {depth : Nat} {read items : List Item}
    (h : Restores depth read (.text (String.ofList []) :: items)) : Restores depth read items := by
  refine ⟨h.text.trans ?_, h.nodes, h.sound⟩
  simp [ownText]

/-- Character data ends where a reference or a tag begins. -/
theorem stops_escape_append {cs rest : List Char}
    (hcs : Stops (fun c => (referenceName? c).isNone) cs)
    (hrest : Stops (· != '<') rest) : Stops (!isMarkup ·) (escape cs ++ rest) := by
  cases cs with
  | nil =>
    intro c hc
    have : c = '<' := by simpa using hrest c hc
    subst this
    rfl
  | cons c cs =>
    obtain ⟨name, hname⟩ : ∃ name, referenceName? c = some name := by
      simpa [← Option.isSome_iff_exists] using hcs c rfl
    rw [escape_cons, escapeChar, hname]
    exact stops_cons rfl

/-- A text splits behind its first run of plain characters. -/
theorem exists_plain_run {c : Char} (h : referenceName? c = none) (cs : List Char) : ∃ run tail,
    c :: cs = run ++ tail ∧ run ≠ [] ∧ (∀ d ∈ run, referenceName? d = none) ∧
      Stops (fun c => (referenceName? c).isNone) tail := by
  induction cs generalizing c with
  | nil => exact ⟨[c], [], rfl, by simp, by simpa using h, by simp [Stops]⟩
  | cons d cs ih =>
    cases hd : referenceName? d with
    | none =>
      obtain ⟨run, tail, hsplit, -, hrun, htail⟩ := ih hd
      refine ⟨c :: run, tail, by rw [hsplit]; rfl, by simp, ?_, htail⟩
      exact List.forall_mem_cons.mpr ⟨h, hrun⟩
    | some name =>
      exact ⟨[c], d :: cs, rfl, by simp, by simpa using h, stops_cons (by simp [hd])⟩

/-- An escaped text is read as texts, up to the next tag. -/
theorem readContent?_escape (depth : Nat) (cs : List Char) : ∃ texts,
    Restores depth texts [.text (String.ofList cs)] ∧
    ∀ (lineEnds : Nat) (top : Frame) (outer : List Frame) (rest : List Char),
      Stops (· != '<') rest →
      readContent? lineEnds top outer (escape cs ++ rest) =
        readContent? lineEnds (top.addAll texts) outer rest := by
  match cs with
  | [] => exact ⟨[], ⟨rfl, rfl, rfl⟩, fun _ _ _ _ _ => rfl⟩
  | c :: cs =>
    cases h : referenceName? c with
    | some name =>
      -- A reference is a text of its own.
      obtain ⟨texts, hrestores, hread⟩ := readContent?_escape depth cs
      refine ⟨.text (String.ofList [c]) :: texts, hrestores.text_cons [c],
        fun lineEnds top outer rest hrest => ?_⟩
      have htoken : token? (escape (c :: cs) ++ rest) = some (.text [c], escape cs ++ rest) := by
        rw [escape_cons, escapeChar, h]
        simpa using token?_referenceName h (escape cs ++ rest)
      rw [readContent?_text htoken, hread _ _ _ _ hrest, Frame.addAll_cons]
    | none =>
      -- A run of plain characters is one text, as far as it goes.
      obtain ⟨run, tail, hsplit, hne, hrun, htail⟩ := exists_plain_run h cs
      have hshorter : tail.length < cs.length + 1 := by
        have := List.length_pos_iff.mpr hne
        rw [← List.length_cons, hsplit, List.length_append]
        omega
      obtain ⟨texts, hrestores, hread⟩ := readContent?_escape depth tail
      rw [hsplit]
      refine ⟨.text (String.ofList run) :: texts, hrestores.text_cons run,
        fun lineEnds top outer rest hrest => ?_⟩
      have htoken : token? (escape (run ++ tail) ++ rest) =
          some (.text run, escape tail ++ rest) := by
        rw [escape_append, escape_of_plain hrun, List.append_assoc]
        exact token?_plain hne hrun (stops_escape_append htail hrest)
      rw [readContent?_text htoken, hread _ _ _ _ hrest, Frame.addAll_cons]
termination_by cs.length

/-! ## Elements -/

/-- A tag that can be written is remembered as it is. -/
theorem remember_of_short {name : List Char} (hshort : name.length ≤ longest) {used : Nat}
    (hroom : used + 2 + name.length < capacity) : remember used name = name := by
  rw [remember, Nat.min_eq_left hshort, if_neg (Nat.not_le.mpr hroom),
    List.take_of_length_le hshort]

/-- The end tag of a frame closes it. -/
theorem readContent?_endTag {tag : String} (htag : IsTagName tag) (lineEnds : Nat) {top : Frame}
    (hname : top.tag = tag.toList) (hremembered : top.remembered = tag.toList) (outer : List Frame)
    (rest : List Char) :
    readContent? lineEnds top outer ('<' :: '/' :: (tag.toList ++ '>' :: rest)) =
      match outer with
      | [] => some (top.toElement none, rest)
      | f :: outer => readContent? lineEnds (f.add (.element (top.toElement none))) outer rest := by
  have hclosed : top.closedBy tag.toList = true := by
    simp [Frame.closedBy, hremembered, htag.nonempty]
  cases outer <;>
    rw [readContent?_close (token?_close htag rest), if_pos hclosed, strayEnd?, if_pos hname.symm]

/-- What is read of a written element stands for the same node, and has no fault. -/
structure Element.Restores (depth : Nat) (read written : Element) : Prop where
  node : read.toNode = written.toNode
  sound : read.fault? depth = none

theorem Element.Restores.of_items {depth : Nat} {tag : String} {as : Attributes}
    {read items : List Item} {stray : Option StrayEnd} (hdepth : depth ≤ maxNesting)
    (h : Markup.Restores (depth + 1) read items) :
    Element.Restores depth (.mk tag as read none) (.mk tag as items stray) := by
  refine ⟨?_, ?_⟩
  · rw [Element.toNode, Element.toNode, textOf, textOf, h.text, h.nodes]
  · rw [Element.fault?, if_neg (Nat.not_lt.mpr hdepth), h.sound]
    rfl

theorem Element.Restores.item {depth : Nat} {read written : Element}
    (h : read.Restores depth written) :
    Markup.Restores depth [.element read] [.element written] := by
  refine ⟨rfl, ?_, ?_⟩
  · simp only [nodesOfItems, h.node]
  · simp only [faultOfItems, h.sound, Option.none_or]

/-- Written items that follow a written text are read up to the next tag, where the names of the
open elements take `used` bytes of memory. -/
def ReadBack (depth used : Nat) (items : List Item) : Prop :=
  ∀ cs : List Char, ∃ read, Restores depth read (.text (String.ofList cs) :: items) ∧
    ∀ (lineEnds : Nat) (top : Frame) (outer : List Frame) (rest : List Char),
      top.used = used → Stops (· != '<') rest →
      readContent? lineEnds top outer (escape cs ++ (writtenItems items ++ rest)) =
        readContent? lineEnds (top.addAll read) outer rest

/-- If its items are read back, then a written element is read from behind its start tag to its
end. -/
theorem Element.Writable.read_content {depth used : Nat} {tag : String} {as : Attributes}
    {items : List Item} {stray : Option StrayEnd}
    (h : (Element.mk tag as items stray).Writable depth used)
    (hitems : ReadBack (depth + 1) (used + 1 + tag.toList.length) items) :
    ∃ e : Element, e.Restores depth (.mk tag as items stray) ∧
      ∀ (lineEnds : Nat) (outer : List Frame) (rest : List Char),
        readContent? lineEnds (Frame.ofStart used ⟨tag.toList, as, false⟩) outer
            (writtenItems items ++ '<' :: '/' :: (tag.toList ++ '>' :: rest)) =
          match outer with
          | [] => some (e, rest)
          | f :: outer => readContent? lineEnds (f.add (.element e)) outer rest := by
  rw [Element.Writable] at h
  obtain ⟨hdepth, htag, hshort, hroom, -, -⟩ := h
  obtain ⟨read, hrestores, hread⟩ := hitems []
  refine ⟨.mk tag as read none, .of_items hdepth hrestores.of_empty_text,
    fun lineEnds outer rest => ?_⟩
  have hname := remember_of_short hshort hroom
  have hused : (Frame.ofStart used ⟨tag.toList, as, false⟩).used =
      used + 1 + tag.toList.length := by
    rw [Frame.ofStart, hname]
  have helement : ((Frame.ofStart used ⟨tag.toList, as, false⟩).addAll read).toElement none =
      .mk tag as read none := by
    simp [Frame.toElement, Frame.addAll, Frame.ofStart]
  refine (hread lineEnds _ outer _ hused (stops_cons rfl)).trans ?_
  rw [readContent?_endTag htag lineEnds rfl hname, helement]

theorem WritableItems.readBack {depth used : Nat} {items : List Item}
    (h : WritableItems depth used items) : ReadBack depth used items := by
  intro cs
  match items with
  | [] =>
    obtain ⟨texts, hrestores, hread⟩ := readContent?_escape depth cs
    exact ⟨texts, hrestores, fun _ _ _ _ _ hrest => hread _ _ _ _ hrest⟩
  | .text s :: items =>
    rw [WritableItems] at h
    obtain ⟨read, hrestores, hread⟩ := h.readBack (cs ++ s.toList)
    refine ⟨read, ?_, fun lineEnds top outer rest hused hrest => ?_⟩
    · have := hrestores.text_append
      rwa [String.ofList_toList] at this
    · rw [writtenItems, List.append_assoc, ← List.append_assoc, ← escape_append]
      exact hread lineEnds top outer rest hused hrest
  | .element (.mk tag as inner stray) :: items =>
    rw [WritableItems] at h
    obtain ⟨helement, hitems⟩ := h
    obtain ⟨-, htag, -, -, has, hinner⟩ := Element.Writable.eq_def _ _ _ ▸ helement
    obtain ⟨texts, htexts, hreadTexts⟩ := readContent?_escape depth cs
    obtain ⟨e, he, hreadElement⟩ := helement.read_content hinner.readBack
    obtain ⟨read, hread, hreadItems⟩ := hitems.readBack []
    refine ⟨texts ++ .element e :: read, ?_, fun lineEnds top outer rest hused hrest => ?_⟩
    · exact htexts.append (he.item.append hread.of_empty_text)
    · have hform : writtenItems (.element (.mk tag as inner stray) :: items) ++ rest =
          '<' :: (tag.toList ++ (as.flatMap writtenAttribute ++ '>' :: (writtenItems inner ++
            '<' :: '/' :: (tag.toList ++ '>' :: (writtenItems items ++ rest))))) := by
        simp [writtenItems, Element.written]
      rw [hform, hreadTexts _ _ _ _ (stops_cons rfl),
        readContent?_start (token?_start htag has _), if_neg (by simp)]
      show readContent? lineEnds (Frame.ofStart top.used _) (top.addAll texts :: outer) _ = _
      rw [hused, hreadElement]
      refine (hreadItems lineEnds ((top.addAll texts).add (.element e)) outer rest hused
        hrest).trans ?_
      rw [Frame.addAll_append, Frame.addAll_cons]

/-! ## Documents -/

/-- A written element is read as the root of a document. -/
theorem readRoot?_written {e : Element} (h : e.Writable 1 reserved) :
    ∃ root : Element, root.Restores 1 e ∧ readRoot? e.written = some root := by
  match e with
  | .mk tag as items stray =>
    obtain ⟨-, htag, -, -, has, hitems⟩ := Element.Writable.eq_def _ _ _ ▸ h
    obtain ⟨root, hroot, hread⟩ := h.read_content hitems.readBack
    refine ⟨root, hroot, ?_⟩
    have hprolog : skipProlog (skipMark (Element.mk tag as items stray).written) =
        (Element.mk tag as items stray).written := by
      obtain ⟨c, cs, hcs⟩ := List.exists_cons_of_ne_nil htag.nonempty
      have hc : isNameChar c = true := htag.chars c (hcs ▸ List.mem_cons_self)
      rw [Element.written, hcs, List.cons_append]
      refine skipProlog_of_tag ?_ ?_ <;> rintro rfl <;> exact absurd hc (by decide)
    have helement : ∀ lineEnds, element? lineEnds (Element.mk tag as items stray).written =
        some (root, []) := by
      intro lineEnds
      rw [Element.written, element?, startTag?_written htag has]
      exact hread lineEnds [] []
    rw [readRoot?, hprolog, helement]
    simp [skipAsides_nil]

theorem assemble_eq_foldl_push (tag : String) (as : Attributes) (children : List Node)
    (text : Option String) :
    Node.assemble tag as children text = children.foldl Node.push (.mk tag as [] text) := by
  have hslots : ∀ slots, children.foldl Node.push (.mk tag as slots text) =
      .mk tag as (children.foldl (fun ss c => Slot.insert c ss) slots) text := by
    induction children with
    | nil => exact fun _ => rfl
    | cons child children ih => exact fun slots => ih (Slot.insert child slots)
  exact (hslots []).symm

/-- **Reading undoes writing.** The text of an element that can be written is a document, and its
tree is the node of the element: with the same tag and the same attributes, with its own texts
joined and trimmed, and with the nodes of its inner elements pushed one after the other. -/
theorem parse_print {e : Element} (h : e.Writable 1 reserved) :
    parse e.print = .ok e.toNode ∧
      e.toNode = (nodesOfItems e.items).foldl Node.push
        (.mk e.tag e.attributes [] (textOf e.items)) := by
  obtain ⟨root, hroot, hread⟩ := readRoot?_written h
  refine ⟨?_, ?_⟩
  · rw [parse, Element.print, String.toList_ofList, hread]
    simp only [hroot.sound, hroot.node]
  · match e with
    | .mk tag as items stray => exact assemble_eq_foldl_push tag as _ _

theorem parse_print_nested :
    parse "<a n=\"&lt;\" n=\"&amp;&quot;\">x]]&gt;<b> 1 </b><b></b></a>" =
      .ok (.mk "a" [("n", "<"), ("n", "&\"")]
        [.mk "b" (.list [.mk "b" [] [] (some "1"), .mk "b" [] [] none])] (some "x]]>")) := by
  have hwritable : (Element.mk "a" [("n", "<"), ("n", "&\"")] [.text "x]", .text "]>",
      .element (.mk "b" [] [.text " 1 "] none), .element (.mk "b" [] [] none)] none).Writable
      1 reserved := by
    have ha : IsTagName "a" := ⟨by decide, List.all_eq_true.mp (by decide)⟩
    have hb : IsTagName "b" := ⟨by decide, List.all_eq_true.mp (by decide)⟩
    have hn : IsName "n" := ⟨'n', [], by decide, by decide, by simp⟩
    simp [Element.Writable, WritableItems, ha, hb, hn, maxNesting, longest, reserved, capacity]
  exact (parse_print hwritable).1

end BehaviorIndex.Markup
