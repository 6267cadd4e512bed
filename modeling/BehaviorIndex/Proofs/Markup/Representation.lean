import BehaviorIndex.Proofs.Markup.Slots
import BehaviorIndex.Proofs.Markup.StartTags
import BehaviorIndex.Proofs.Text.Blank

/-!
# The shape of a parsed tree

**Theorem (`valid_of_parse`).** Every node of a parsed tree is *valid* at its level (`Node.Valid`):

* the level is not beyond the deepest one, the tag is a name, and a text is trimmed and not empty;
* no two slots have the same tag, and the nodes in a slot have its tag;
* a list holds at least two nodes, and a child with a text and nothing else is kept as a value.

Whatever is reached in the tree is the node of an element of the document (`Reaches.of_element`). So
it is enough to look at one element: its level and its tag come from the reader, its text is
trimmed, and its slots group the nodes of its inner elements.
-/

namespace BehaviorIndex.Markup

open Text

/-! ## Trimmed texts -/

/-- The text is not empty, and no blank stands at its start or its end. -/
structure IsTrimmed (t : String) : Prop where
  ne_nil : t.toList ≠ []
  head : ∀ c ∈ t.toList.head?, isBlank c = false
  last : ∀ c ∈ t.toList.getLast?, isBlank c = false

theorem head?_trim {cs : List Char} (h : trim cs ≠ []) :
    (trim cs).head? = (trimStart cs).head? := by
  obtain ⟨rest, hrest⟩ := trimEnd_isPrefix (trimStart cs)
  have happend : (trim cs ++ rest).head? = (trim cs).head? := List.head?_append_of_ne_nil _ h
  rw [trim, hrest] at happend
  exact happend.symm

theorem stops_trimEnd_reverse (cs : List Char) : Stops isBlank (trimEnd cs).reverse := by
  rw [trimEnd, List.reverse_reverse]
  exact stops_dropWhile

theorem isTrimmed_trimmed {s : String} (h : (trimmed s).isEmpty = false) :
    IsTrimmed (trimmed s) := by
  have hne : trim s.toList ≠ [] := by
    intro hnil
    rw [trimmed, hnil] at h
    exact absurd h (by decide)
  refine ⟨?_, ?_, ?_⟩
  · rwa [trimmed, String.toList_ofList]
  · rw [trimmed, String.toList_ofList, head?_trim hne]
    exact stops_dropWhile
  · rw [trimmed, String.toList_ofList, ← List.head?_reverse]
    exact stops_trimEnd_reverse _

/-- The text of an element is trimmed. -/
theorem isTrimmed_of_textOf {items : List Item} {t : String} (h : textOf items = some t) :
    IsTrimmed t := by
  unfold textOf at h
  simp only at h
  split at h
  · cases h
  · next hne =>
    cases h
    exact isTrimmed_trimmed (by simpa using hne)

/-! ## Names of tags -/

theorem isTagName_of_tagName? {cs name rest : List Char} (h : tagName? cs = some (name, rest)) :
    IsTagName (String.ofList name) := by
  cases cs with
  | nil => cases h
  | cons c cs =>
    rw [tagName?] at h
    split at h
    · next hc =>
      cases h
      refine ⟨by simp, fun d hd => ?_⟩
      rw [String.toList_ofList, List.mem_cons] at hd
      rcases hd with rfl | hd
      · exact hc
      · exact of_mem_takeWhile hd
    · cases h

theorem isTagName_of_startTag? {cs rest : List Char} {t : StartTag}
    (h : startTag? cs = some (t, rest)) : IsTagName t.opening.1 := by
  obtain ⟨behind, htag, -⟩ := startTag?_eq_some h
  exact isTagName_of_tagName? htag

/-- A start tag among the tokens of any text, plain or not, begins with `<`. -/
theorem startTag?_of_token? {cs rest : List Char} {t : StartTag}
    (h : token? cs = some (.start t, rest)) :
    ∃ behind, cs = '<' :: behind ∧ startTag? behind = some (t, rest) := by
  unfold token? at h
  split at h
  case h_5 behind _ _ _ =>
    obtain ⟨⟨t', rest'⟩, hstart, h⟩ := Option.map_eq_some_iff.mp h
    cases h
    exact ⟨behind, rfl, hstart⟩
  case h_7 =>
    rw [characterData?] at h
    split at h <;> simp at h
  case h_3 =>
    split at h
    · simp at h
    · obtain ⟨_, -, h⟩ := Option.map_eq_some_iff.mp h
      cases h
  all_goals simp at h

/-- **Reading content.** If all open elements have names for their tags, then so do all elements of
the element that is read. -/
theorem isTagName_of_readContent? {lineEnds : Nat} {top : Frame} {outer : List Frame}
    {cs rest : List Char} {root : Element}
    (hframes : ∀ o ∈ openingsOfFrames top outer, IsTagName o.1)
    (h : readContent? lineEnds top outer cs = some (root, rest)) :
    ∀ o ∈ root.openings, IsTagName o.1 := by
  cases htoken : token? cs with
  | none =>
    rw [readContent?_eq_none htoken] at h
    cases h
  | some read =>
    obtain ⟨token, mid⟩ := read
    have hshorter := length_of_token? htoken
    cases token with
    | text t =>
      rw [readContent?_text htoken] at h
      refine isTagName_of_readContent? ?_ h
      rwa [openingsOfFrames_add_text]
    | silent =>
      rw [readContent?_silent htoken] at h
      exact isTagName_of_readContent? hframes h
    | start t =>
      obtain ⟨behind, -, hstart⟩ := startTag?_of_token? htoken
      have hall : ∀ o ∈ openingsOfFrames top outer ++ [t.opening], IsTagName o.1 :=
        List.forall_mem_append.mpr ⟨hframes, by simpa using isTagName_of_startTag? hstart⟩
      rw [readContent?_start htoken] at h
      split at h
      · refine isTagName_of_readContent? ?_ h
        rwa [openingsOfFrames_add_element, StartTag.openings_toElement]
      · refine isTagName_of_readContent? ?_ h
        rwa [openingsOfFrames_cons, Frame.openings_ofStart]
    | close name =>
      rw [readContent?_close htoken] at h
      split at h
      · cases outer with
        | nil =>
          cases h
          rwa [Frame.openings_toElement]
        | cons f outer =>
          refine isTagName_of_readContent? ?_ h
          rwa [openingsOfFrames_add_element, Frame.openings_toElement, ← openingsOfFrames_cons]
      · cases h
termination_by cs.length

theorem isTagName_of_readRoot? {cs : List Char} {root : Element} (h : readRoot? cs = some root) :
    ∀ o ∈ root.openings, IsTagName o.1 := by
  rw [readRoot?] at h
  split at h
  · next root' rest hread =>
    split at h
    · cases h
      unfold element? at hread
      split at hread
      · split at hread
        · cases hread
        · next t mid hstart =>
          have htag := isTagName_of_startTag? hstart
          split at hread
          · cases hread
            rw [StartTag.openings_toElement]
            simpa using htag
          · refine isTagName_of_readContent? ?_ hread
            rw [openingsOfFrames_nil, Frame.openings_ofStart]
            simpa using htag
      · cases hread
    · cases h
  · cases h

/-! ## Sound elements -/

/-- The element has no fault at its level, and its tags are names, as are those inside it. -/
structure Element.Sound (level : Nat) (e : Element) : Prop where
  fault : e.fault? level = none
  tags : ∀ o ∈ e.openings, IsTagName o.1

theorem fault?_of_mem_items {level : Nat} {items : List Item} {e : Element}
    (h : faultOfItems level items = none) (he : .element e ∈ items) : e.fault? level = none := by
  induction items with
  | nil => cases he
  | cons item items ih =>
    cases item with
    | text s =>
      rw [faultOfItems] at h
      exact ih h ((List.mem_cons.mp he).resolve_left (by simp))
    | element e' =>
      rw [faultOfItems, Option.or_eq_none_iff] at h
      rcases List.mem_cons.mp he with heq | he
      · cases heq
        exact h.1
      · exact ih h.2 he

theorem openings_subset_of_mem_items {items : List Item} {e : Element} (he : .element e ∈ items) :
    e.openings ⊆ openingsOfItems items := by
  induction items with
  | nil => cases he
  | cons item items ih =>
    rcases List.mem_cons.mp he with rfl | hrest
    · rw [openingsOfItems]
      exact List.subset_append_left _ _
    · cases item with
      | text s => exact ih hrest
      | element e' =>
        rw [openingsOfItems]
        exact List.Subset.trans (ih hrest) (List.subset_append_right _ _)

theorem mem_nodesOfItems {items : List Item} {n : Node} (h : n ∈ nodesOfItems items) :
    ∃ e : Element, .element e ∈ items ∧ e.toNode = n := by
  induction items with
  | nil => cases h
  | cons item items ih =>
    have hrest : n ∈ nodesOfItems items →
        ∃ e : Element, .element e ∈ item :: items ∧ e.toNode = n := by
      intro hn
      obtain ⟨e, he, hnode⟩ := ih hn
      exact ⟨e, List.mem_cons_of_mem _ he, hnode⟩
    cases item with
    | text s => exact hrest h
    | element e =>
      rw [nodesOfItems, List.mem_cons] at h
      rcases h with rfl | h
      · exact ⟨e, List.mem_cons_self, rfl⟩
      · exact hrest h

namespace Element.Sound

variable {level : Nat} {e : Element}

theorem level_le (h : e.Sound level) : level ≤ maxNesting := by
  obtain ⟨tag, as, items, stray⟩ := e
  have hfault := h.fault
  rw [Element.fault?] at hfault
  split at hfault
  · cases hfault
  · next hlevel => exact Nat.not_lt.mp hlevel

theorem tag (h : e.Sound level) : IsTagName e.tag := by
  obtain ⟨tag, as, items, stray⟩ := e
  exact h.tags (tag, as) (by rw [Element.openings]; exact List.mem_cons_self)

theorem item (h : e.Sound level) {inner : Element} (hinner : .element inner ∈ e.items) :
    inner.Sound (level + 1) := by
  obtain ⟨tag, as, items, stray⟩ := e
  have hfault := h.fault
  have htags := h.tags
  rw [Element.fault?] at hfault
  rw [Element.openings] at htags
  refine ⟨?_, fun o ho => htags o (List.mem_cons_of_mem _ ?_)⟩
  · split at hfault
    · cases hfault
    · exact fault?_of_mem_items (Option.or_eq_none_iff.mp hfault).1 hinner
  · exact openings_subset_of_mem_items hinner ho

end Element.Sound

theorem Element.tag_toNode (e : Element) : e.toNode.tag = e.tag := by
  obtain ⟨tag, as, items, stray⟩ := e
  rw [Element.toNode]
  rfl

theorem Element.text_toNode (e : Element) : e.toNode.text = textOf e.items := by
  obtain ⟨tag, as, items, stray⟩ := e
  rw [Element.toNode, Node.assemble, Node.text, Element.items]

theorem Element.groups_toNode (e : Element) : Groups (nodesOfItems e.items) e.toNode.slots := by
  obtain ⟨tag, as, items, stray⟩ := e
  rw [Element.toNode]
  exact Node.groups_assemble tag as _ _

/-- The tag of a slot is that of an inner element. -/
theorem Element.exists_inner_of_mem_tags (e : Element) {tag : String}
    (h : tag ∈ e.toNode.slots.map Slot.tag) :
    ∃ inner : Element, .element inner ∈ e.items ∧ inner.tag = tag := by
  obtain ⟨n, hn, rfl⟩ := List.mem_map.mp ((e.groups_toNode.mem_tags tag).mp h)
  obtain ⟨inner, hinner, rfl⟩ := mem_nodesOfItems hn
  exact ⟨inner, hinner, inner.tag_toNode.symm⟩

/-! ## Valid nodes -/

/-- The node `n` is in the tree of `root` at a level, the root being at level one. -/
inductive Node.Reaches (root : Node) : Nat → Node → Prop
  | root : Reaches root 1 root
  | element {level : Nat} {n m : Node} {tag : String} (h : Reaches root level n)
      (hm : .mk tag (.element m) ∈ n.slots) : Reaches root (level + 1) m
  | list {level : Nat} {n m : Node} {tag : String} {ns : List Node} (h : Reaches root level n)
      (hns : .mk tag (.list ns) ∈ n.slots) (hm : m ∈ ns) : Reaches root (level + 1) m

/-- What a slot of a node at a level may hold. -/
def Slot.Valid (level : Nat) : Slot → Prop
  | .mk tag (.element m) =>
    m.tag = tag ∧ (m.attributes = [] → m.slots = [] → m.text = none)
  | .mk tag (.list ns) => 2 ≤ ns.length ∧ ∀ m ∈ ns, m.tag = tag
  | .mk _ (.value t) => IsTrimmed t ∧ level + 1 ≤ maxNesting

structure Node.Valid (level : Nat) (n : Node) : Prop where
  level_le : level ≤ maxNesting
  tag : IsTagName n.tag
  text : ∀ t ∈ n.text, IsTrimmed t
  distinct : (n.slots.map Slot.tag).Nodup
  slots : ∀ s ∈ n.slots, IsTagName s.tag ∧ s.Valid level

/-- The nodes that a slot groups are those of inner elements, and have its tag. -/
theorem Element.exists_of_mem_filter {e : Element} {tag : String} {m : Node}
    (hm : m ∈ (nodesOfItems e.items).filter fun c => c.tag = tag) :
    ∃ inner : Element, .element inner ∈ e.items ∧ inner.toNode = m ∧ m.tag = tag := by
  obtain ⟨hm, htag⟩ := List.mem_filter.mp hm
  obtain ⟨inner, hinner, hnode⟩ := mem_nodesOfItems hm
  exact ⟨inner, hinner, hnode, by simpa using htag⟩

/-- A node without a bare text has a text only beside attributes or children. -/
theorem Node.text_eq_none_of_bareText? {n : Node} (h : n.bareText? = none)
    (has : n.attributes = []) (hslots : n.slots = []) : n.text = none := by
  obtain ⟨tag, as, slots, text⟩ := n
  simp only [Node.attributes, Node.slots] at has hslots
  subst has hslots
  cases text with
  | none => rfl
  | some t => cases h

namespace Element.Sound

variable {level : Nat} {e : Element}

theorem slot_valid (h : e.Sound level) {s : Slot} (hs : s ∈ e.toNode.slots) : s.Valid level := by
  have hgroups := e.groups_toNode
  have hchild := (hgroups.child s hs).symm
  have hne := hgroups.ne_nil hs
  obtain ⟨tag, child⟩ := s
  simp only [Slot.child, Slot.tag] at hchild hne
  cases child with
  | element m =>
    obtain ⟨hnodes, hbare⟩ := Child.ofNodes_eq_element hchild
    obtain ⟨inner, -, -, htag⟩ := exists_of_mem_filter (hnodes ▸ List.mem_cons_self)
    exact ⟨htag, m.text_eq_none_of_bareText? hbare⟩
  | list ns =>
    obtain ⟨hnodes, hlength⟩ := Child.ofNodes_eq_list hne hchild
    refine ⟨hlength, fun m hm => ?_⟩
    obtain ⟨inner, -, -, htag⟩ := exists_of_mem_filter (hnodes ▸ hm)
    exact htag
  | value t =>
    obtain ⟨n, hnodes, hbare⟩ := Child.ofNodes_eq_value hchild
    obtain ⟨inner, hinner, rfl, -⟩ := exists_of_mem_filter (hnodes ▸ List.mem_cons_self)
    have htext : inner.toNode.text = some t := by
      rw [Node.bareText?_eq_some hbare]
      rfl
    rw [text_toNode] at htext
    exact ⟨isTrimmed_of_textOf htext, (h.item hinner).level_le⟩

theorem slot_tag (h : e.Sound level) {s : Slot} (hs : s ∈ e.toNode.slots) : IsTagName s.tag := by
  obtain ⟨inner, hinner, htag⟩ := e.exists_inner_of_mem_tags (List.mem_map_of_mem hs)
  exact htag ▸ (h.item hinner).tag

/-- **One element.** The node of a sound element is valid. -/
theorem valid (h : e.Sound level) : e.toNode.Valid level where
  level_le := h.level_le
  tag := e.tag_toNode ▸ h.tag
  text _ ht := isTrimmed_of_textOf (e.text_toNode ▸ ht)
  distinct := e.groups_toNode.nodup
  slots _ hs := ⟨h.slot_tag hs, h.slot_valid hs⟩

end Element.Sound

/-- **The whole tree.** Whatever is reached from the node of a sound element is the node of a sound
element. -/
theorem Node.Reaches.of_element {root : Element} (hroot : root.Sound 1) {level : Nat} {n : Node}
    (h : root.toNode.Reaches level n) : ∃ e : Element, e.Sound level ∧ e.toNode = n := by
  induction h with
  | root => exact ⟨root, hroot, rfl⟩
  | @element level n m tag _ hm ih =>
    obtain ⟨e, he, rfl⟩ := ih
    obtain ⟨hnodes, -⟩ := Child.ofNodes_eq_element (e.groups_toNode.child _ hm).symm
    obtain ⟨inner, hinner, hnode, -⟩ := Element.exists_of_mem_filter (hnodes ▸ List.mem_cons_self)
    exact ⟨inner, he.item hinner, hnode⟩
  | @list level n m tag ns _ hns hm ih =>
    obtain ⟨e, he, rfl⟩ := ih
    have hgroups := e.groups_toNode
    obtain ⟨hnodes, -⟩ := Child.ofNodes_eq_list (hgroups.ne_nil hns) (hgroups.child _ hns).symm
    obtain ⟨inner, hinner, hnode, -⟩ := Element.exists_of_mem_filter (hnodes ▸ hm)
    exact ⟨inner, he.item hinner, hnode⟩

/-- A parsed tree is that of the element the document holds, which is sound. -/
theorem exists_root_of_parse {text : String} {node : Node} (h : parse text = .ok node) :
    ∃ root : Element, readRoot? text.toList = some root ∧ root.Sound 1 ∧ root.toNode = node := by
  rw [parse] at h
  split at h
  · next root hroot =>
    split at h
    · cases h
    · next hfault =>
      cases h
      exact ⟨root, hroot, ⟨hfault, isTagName_of_readRoot? hroot⟩, rfl⟩
  · split at h <;> cases h

theorem exists_sound_of_parse {text : String} {node : Node} (h : parse text = .ok node) :
    ∃ root : Element, root.Sound 1 ∧ root.toNode = node := by
  obtain ⟨root, -, hsound, hnode⟩ := exists_root_of_parse h
  exact ⟨root, hsound, hnode⟩

/-- **The shape of a parsed tree.** Every node of the tree is valid at its level. -/
theorem valid_of_parse {text : String} {root : Node} (h : parse text = .ok root) {level : Nat}
    {n : Node} (hn : root.Reaches level n) : n.Valid level := by
  obtain ⟨e, he, rfl⟩ := exists_sound_of_parse h
  obtain ⟨inner, hinner, rfl⟩ := hn.of_element he
  exact hinner.valid

/-- A document with a value, a list that began as a value, and an element with a text of its own. -/
def thicket : String := "<r><v> x </v><l>1</l><e a='b'> y </e><l><i/></l></r>"

theorem valid_of_parse_thicket :
    ∃ root n, parse thicket = .ok root ∧ root.Reaches 2 n ∧ n.tag = "l" ∧ n.hasChildren = true ∧
      root.Valid 1 ∧ n.Valid 2 := by
  have hrun : ((parse thicket).toOption.any fun root => root.slots.any fun s =>
      (s.child.nodes s.tag).any fun n => n.tag == "l" && n.hasChildren) = true := by decide +kernel
  cases hparse : parse thicket with
  | error e =>
    rw [hparse] at hrun
    cases hrun
  | ok root =>
    rw [hparse] at hrun
    obtain ⟨⟨tag, child⟩, hs, hchild⟩ := List.any_eq_true.mp hrun
    obtain ⟨n, hn, hform⟩ := List.any_eq_true.mp hchild
    rw [Bool.and_eq_true, beq_iff_eq] at hform
    have hreach : root.Reaches 2 n := by
      cases child with
      | element m => exact List.mem_singleton.mp hn ▸ .element .root hs
      | list ns => exact .list .root hs hn
      | value t =>
        rw [List.mem_singleton.mp hn] at hform
        exact absurd hform.2 (by simp [Node.hasChildren, Node.slots])
    exact ⟨root, n, rfl, hreach, hform.1, hform.2, valid_of_parse hparse .root,
      valid_of_parse hparse hreach⟩

end BehaviorIndex.Markup
