import BehaviorIndex.Markup.Outline

/-!
# The children of a node

The children of a node, slot by slot, each with the tag of its slot (`Node.children`). A value
counts as the node it stands for, so an outline does not tell the three forms of a slot apart:

* a node without children has one line (`Node.outlineLines_of_nil`);
* any other has a line that opens it, the lines of its children, and a line that closes it; below
  the deepest level `...` stands for the children (`Node.outlineLines_of_ne_nil`).

What holds of a node as soon as it holds of the elements in its slots holds of every node
(`Node.induction_slots`), and so does what holds of a node as soon as it holds of its children
(`Node.induction_children`).
-/

namespace BehaviorIndex.Markup

/-- The elements that a slot holds. A value is none. -/
def Child.inner : Child → List Node
  | .element n => [n]
  | .list ns => ns
  | .value _ => []

/-- The children in some slots, each with the tag of its slot. -/
def childrenOf (slots : List Slot) : List (String × Node) :=
  slots.flatMap fun s => (s.child.nodes s.tag).map fun n => (s.tag, n)

def Node.children (n : Node) : List (String × Node) := childrenOf n.slots

theorem Child.mem_nodes_of_mem_inner {c : Child} {m : Node} (h : m ∈ c.inner) (tag : String) :
    m ∈ c.nodes tag := by
  cases c with
  | element n => exact h
  | list ns => exact h
  | value t => cases h

/-! ## Induction -/

theorem Child.sizeOf_lt_of_mem_inner {c : Child} {m : Node} (h : m ∈ c.inner) :
    sizeOf m < sizeOf c := by
  cases c with
  | element n =>
    obtain rfl := List.mem_singleton.mp h
    simp
  | list ns =>
    have hlt := List.sizeOf_lt_of_mem (show m ∈ ns from h)
    simp only [Child.list.sizeOf_spec]
    omega
  | value t => cases h

theorem Node.sizeOf_lt_of_mem_slots {n m : Node} {s : Slot} (hs : s ∈ n.slots)
    (hm : m ∈ s.child.inner) : sizeOf m < sizeOf n := by
  obtain ⟨t, c⟩ := s
  obtain ⟨tag, as, slots, text⟩ := n
  have hslot := List.sizeOf_lt_of_mem (show Slot.mk t c ∈ slots from hs)
  have hchild := Child.sizeOf_lt_of_mem_inner (show m ∈ c.inner from hm)
  simp only [Slot.mk.sizeOf_spec] at hslot
  simp only [Node.mk.sizeOf_spec]
  omega

/-- **Induction over slots.** What passes from the elements in the slots to the node holds of every
node. -/
theorem Node.induction_slots {P : Node → Prop}
    (step : ∀ n : Node, (∀ s ∈ n.slots, ∀ m ∈ s.child.inner, P m) → P n) (n : Node) : P n := by
  apply step
  intro s hs m hm
  have hlt := Node.sizeOf_lt_of_mem_slots hs hm
  exact Node.induction_slots step m
termination_by sizeOf n

theorem mem_childrenOf {slots : List Slot} {c : String × Node} :
    c ∈ childrenOf slots ↔ ∃ s ∈ slots, c.1 = s.tag ∧ c.2 ∈ s.child.nodes s.tag := by
  obtain ⟨tag, n⟩ := c
  simp only [childrenOf, List.mem_flatMap, List.mem_map, Prod.mk.injEq]
  constructor
  · rintro ⟨s, hs, m, hm, rfl, rfl⟩
    exact ⟨s, hs, rfl, hm⟩
  · rintro ⟨s, hs, rfl, hm⟩
    exact ⟨s, hs, n, hm, rfl, rfl⟩

/-- **Induction over children.** A value stands for a node without children, so it needs no case of
its own. -/
theorem Node.induction_children {P : Node → Prop}
    (step : ∀ n : Node, (∀ c ∈ n.children, P c.2) → P n) (n : Node) : P n := by
  induction n using Node.induction_slots with
  | step n ih =>
    apply step
    intro c hc
    obtain ⟨s, hs, -, hc⟩ := mem_childrenOf.mp hc
    cases hchild : s.child with
    | element m =>
      rw [hchild] at hc
      exact ih s hs c.2 (by rw [hchild]; exact hc)
    | list ms =>
      rw [hchild] at hc
      exact ih s hs c.2 (by rw [hchild]; exact hc)
    | value t =>
      rw [hchild] at hc
      rw [List.mem_singleton.mp hc]
      apply step
      intro d hd
      cases hd

/-! ## The lines of an outline -/

/-- Attributes as they are shown: ` name="value"` for each. -/
def shown : Attributes → List Char
  | [] => []
  | (name, value) :: as =>
    ' ' :: name.toList ++ '=' :: '"' :: value.toList ++ '"' :: shown as

/-- Two spaces for each level, a dash and a space, and some characters. -/
def itemLine (depth : Nat) (cs : List Char) : String :=
  String.ofList (List.replicate (2 * depth) ' ' ++ '-' :: ' ' :: cs)

/-- The line of a node without children. -/
def singleLine (depth : Nat) (tag : String) (as : Attributes) : String :=
  itemLine depth ('<' :: tag.toList ++ shown as ++ [' ', '/', '>'])

/-- The line that opens a node with children. -/
def openLine (depth : Nat) (tag : String) (as : Attributes) : String :=
  itemLine depth ('<' :: tag.toList ++ shown as ++ ['>'])

/-- The line that closes it. -/
def closeLine (depth : Nat) (tag : String) : String :=
  itemLine depth ('<' :: '/' :: tag.toList ++ ['>'])

/-- The line that stands for children that are too deep. -/
def dotsLine (depth : Nat) : String := itemLine depth ['.', '.', '.']

theorem toList_pushn (k : Nat) : ("".pushn ' ' k).toList = List.replicate k ' ' := by
  unfold String.pushn
  induction k with
  | zero => rfl
  | succ k ih => rw [Nat.repeat, String.toList_push, ih, List.replicate_succ']

theorem outlineLine_eq (depth : Nat) (s : String) :
    outlineLine depth s = itemLine depth s.toList := by
  apply String.toList_inj.mp
  simp [outlineLine, itemLine, toList_pushn]

theorem toList_attributesText (as : Attributes) : (attributesText as).toList = shown as := by
  induction as with
  | nil => rfl
  | cons a as ih =>
    obtain ⟨name, value⟩ := a
    rw [attributesText, String.toList_join] at ih ⊢
    simp [shown, ih]

/-! ## Outlines -/

section

variable {n : Node} {tag : String} {depth : Nat}

theorem outlineOfNodes_eq_flatMap (tag : String) (depth : Nat) (nodes : List Node) :
    outlineOfNodes tag depth nodes = nodes.flatMap fun n => n.outlineLines tag depth := by
  induction nodes with
  | nil => rfl
  | cons n nodes ih => rw [outlineOfNodes, ih, List.flatMap_cons]

/-- A slot is shown as the nodes it stands for. -/
theorem outlineOfChild_eq_flatMap (tag : String) (depth : Nat) (c : Child) :
    outlineOfChild tag depth c = (c.nodes tag).flatMap fun n => n.outlineLines tag depth := by
  cases c with
  | element n => simp [outlineOfChild, Child.nodes]
  | list ns => exact outlineOfNodes_eq_flatMap tag depth ns
  | value t => simp [outlineOfChild, Child.nodes, Node.outlineLines, attributesText]

theorem outlineOfSlots_eq_flatMap (depth : Nat) (slots : List Slot) :
    outlineOfSlots depth slots =
      (childrenOf slots).flatMap fun c => c.2.outlineLines c.1 depth := by
  induction slots with
  | nil => rfl
  | cons s slots ih =>
    obtain ⟨t, c⟩ := s
    rw [outlineOfSlots, ih, outlineOfChild_eq_flatMap, childrenOf, childrenOf, List.flatMap_cons,
      List.flatMap_append, List.flatMap_map]
    rfl

theorem Node.outlineLines_of_nil (h : n.slots = []) (tag : String) (depth : Nat) :
    n.outlineLines tag depth = [singleLine depth tag n.attributes] := by
  obtain ⟨t, as, slots, text⟩ := n
  have hslots : slots.isEmpty = true := List.isEmpty_iff.mpr h
  rw [Node.outlineLines, if_pos hslots, outlineLine_eq, singleLine]
  simp [toList_attributesText, Node.attributes]

theorem Node.outlineLines_of_ne_nil (h : n.slots ≠ []) (tag : String) (depth : Nat) :
    n.outlineLines tag depth =
      openLine depth tag n.attributes ::
        (if maxNesting ≤ depth + 1 then [dotsLine (depth + 1)]
          else n.children.flatMap fun c => c.2.outlineLines c.1 (depth + 1)) ++
        [closeLine depth tag] := by
  obtain ⟨t, as, slots, text⟩ := n
  have hslots : ¬ slots.isEmpty = true := fun hnil => h (List.isEmpty_iff.mp hnil)
  rw [Node.outlineLines, if_neg hslots, outlineOfSlots_eq_flatMap, openLine, closeLine, dotsLine]
  simp [outlineLine_eq, toList_attributesText, Node.attributes, Node.children, Node.slots]

end

end BehaviorIndex.Markup
