import BehaviorIndex.Proofs.Markup.Children
import Mathlib.Data.List.Basic

/-!
# Outlines are bracket structures

**Theorem (`Node.outline_structure`).** From a level on from which no part of a node is too deep,
its outline

* is the one from level zero with two further spaces for each level in front of every line;
* has one line for each element without children and for each value, and two for each other element;
* is a bracket structure: between the line that opens an element and the one that closes it, at the
  same indent, stand the lines of its children, slot by slot, and all of them are indented further.

From any level on, the outline shows the node with `...` in place of all children that are below the
deepest level.

For the last part the node is drawn as a tree of its own kind (`Sketch`), which has a place for the
dots. A sketch is written line by line without regard to depth (`Sketch.lines`), and what is too
deep is cut off before (`Sketch.cut`).
-/

namespace BehaviorIndex.Markup

/-! ## Levels and elements -/

mutual

/-- The number of levels of a node. A slot takes a level even if its list is empty: its node has
children then, though there is none to show. -/
def Node.height : Node → Nat
  | .mk _ _ ss _ => heightOfSlots ss + 1

def heightOfSlots : List Slot → Nat
  | [] => 0
  | .mk _ c :: ss => max (heightOfChild c) (heightOfSlots ss)

def heightOfChild : Child → Nat
  | .element n => n.height
  | .list ns => heightOfNodes ns
  | .value _ => 1

def heightOfNodes : List Node → Nat
  | [] => 1
  | n :: ns => max n.height (heightOfNodes ns)

end

mutual

/-- A node and all elements inside it. Values are not among them. -/
def Node.elements : Node → List Node
  | .mk tag as ss text => .mk tag as ss text :: elementsOfSlots ss

def elementsOfSlots : List Slot → List Node
  | [] => []
  | .mk _ c :: ss => elementsOfChild c ++ elementsOfSlots ss

def elementsOfChild : Child → List Node
  | .element n => n.elements
  | .list ns => elementsOfNodes ns
  | .value _ => []

def elementsOfNodes : List Node → List Node
  | [] => []
  | n :: ns => n.elements ++ elementsOfNodes ns

end

def Slot.isValue : Slot → Bool
  | .mk _ (.value _) => true
  | _ => false

/-! ## Sketches -/

/-- What an outline shows of a node. -/
inductive Sketch where
  /-- An element without children, or a value. -/
  | leaf (tag : String) (attributes : Attributes)
  | branch (tag : String) (attributes : Attributes) (inner : List Sketch)
  /-- Dots, in place of all children of an element. -/
  | more

mutual

/-- The sketch of a node, shown under the name `tag`, with all its levels. -/
def Node.sketch (tag : String) : Node → Sketch
  | .mk _ as ss _ => if ss.isEmpty then .leaf tag as else .branch tag as (sketchOfSlots ss)

def sketchOfSlots : List Slot → List Sketch
  | [] => []
  | .mk tag c :: ss => sketchOfChild tag c ++ sketchOfSlots ss

def sketchOfChild (tag : String) : Child → List Sketch
  | .element n => [n.sketch tag]
  | .list ns => sketchOfNodes tag ns
  | .value _ => [.leaf tag []]

def sketchOfNodes (tag : String) : List Node → List Sketch
  | [] => []
  | n :: ns => n.sketch tag :: sketchOfNodes tag ns

end

mutual

/-- The lines of a sketch, from level `depth` on. No level is too deep. -/
def Sketch.lines (depth : Nat) : Sketch → List String
  | .leaf tag as => [singleLine depth tag as]
  | .branch tag as inner =>
    openLine depth tag as :: linesOfSketches (depth + 1) inner ++ [closeLine depth tag]
  | .more => [dotsLine depth]

def linesOfSketches (depth : Nat) : List Sketch → List String
  | [] => []
  | k :: ks => k.lines depth ++ linesOfSketches depth ks

end

mutual

/-- A sketch at level `depth` with dots for the children of every branch at the last level that may
have any, or below it. -/
def Sketch.cut (depth : Nat) : Sketch → Sketch
  | .leaf tag as => .leaf tag as
  | .branch tag as inner =>
    .branch tag as (if maxNesting - 1 ≤ depth then [.more] else cutSketches (depth + 1) inner)
  | .more => .more

def cutSketches (depth : Nat) : List Sketch → List Sketch
  | [] => []
  | k :: ks => k.cut depth :: cutSketches depth ks

end

/-! ## Brackets -/

/-- The number of spaces in front of a line. -/
def indentOf (line : String) : Nat := (line.toList.takeWhile (· == ' ')).length

/-- The lines of some nodes at one level, each shown under a name. -/
inductive Brackets : Nat → List (String × Node) → List String → Prop
  | nil {depth : Nat} : Brackets depth [] []
  | single {depth : Nat} {tag : String} {n : Node} {rest : List (String × Node)}
      {lines : List String} (hn : n.slots = []) (hrest : Brackets depth rest lines) :
      Brackets depth ((tag, n) :: rest) (singleLine depth tag n.attributes :: lines)
  /-- The line that opens a node is matched by the one that closes it. -/
  | pair {depth : Nat} {tag : String} {n : Node} {rest : List (String × Node)}
      {inner lines : List String} (hn : n.slots ≠ [])
      (hinner : Brackets (depth + 1) n.children inner)
      (hclose : indentOf (closeLine depth tag) = indentOf (openLine depth tag n.attributes))
      (hindent : ∀ line ∈ inner, indentOf (openLine depth tag n.attributes) + 2 ≤ indentOf line)
      (hrest : Brackets depth rest lines) :
      Brackets depth ((tag, n) :: rest)
        (openLine depth tag n.attributes :: (inner ++ closeLine depth tag :: lines))

/-- What is said of the outline of a node from a level on from which no part of it is too deep. -/
structure Node.Outlined (n : Node) (tag : String) (depth : Nat) : Prop where
  shift : n.outlineLines tag depth = (n.outlineLines tag 0).map ("".pushn ' ' (2 * depth) ++ ·)
  length : (n.outlineLines tag depth).length =
    n.elements.countP (fun m => !m.hasChildren) +
      (n.elements.flatMap Node.slots).countP Slot.isValue + 2 * n.elements.countP Node.hasChildren
  brackets : Brackets depth [(tag, n)] (n.outlineLines tag depth)
  contents : n.slots ≠ [] → n.outlineLines tag depth =
    openLine depth tag n.attributes ::
      (n.children.flatMap fun c => c.2.outlineLines c.1 (depth + 1)) ++ [closeLine depth tag]
  /-- Nothing is cut off. -/
  whole : n.outlineLines tag depth = (n.sketch tag).lines depth

/-! ## Levels -/

theorem one_le_heightOfChild (c : Child) : 1 ≤ heightOfChild c := by
  cases c with
  | element n =>
    obtain ⟨tag, as, slots, text⟩ := n
    exact Nat.le_add_left 1 _
  | list ns =>
    induction ns with
    | nil => exact Nat.le_refl 1
    | cons n ns ih => exact Nat.le_trans ih (Nat.le_max_right _ _)
  | value t => exact Nat.le_refl 1

theorem height_le_heightOfNodes {nodes : List Node} {m : Node} (h : m ∈ nodes) :
    m.height ≤ heightOfNodes nodes := by
  induction nodes with
  | nil => cases h
  | cons n nodes ih =>
    rw [heightOfNodes]
    rcases List.mem_cons.mp h with rfl | h
    · exact Nat.le_max_left _ _
    · exact Nat.le_trans (ih h) (Nat.le_max_right _ _)

theorem height_le_heightOfChild {c : Child} {tag : String} {m : Node} (h : m ∈ c.nodes tag) :
    m.height ≤ heightOfChild c := by
  cases c with
  | element n =>
    rw [List.mem_singleton.mp h]
    exact Nat.le_refl _
  | list ns => exact height_le_heightOfNodes h
  | value t =>
    rw [List.mem_singleton.mp h]
    exact Nat.le_refl _

theorem heightOfChild_le_heightOfSlots {slots : List Slot} {s : Slot} (h : s ∈ slots) :
    heightOfChild s.child ≤ heightOfSlots slots := by
  induction slots with
  | nil => cases h
  | cons s' slots ih =>
    obtain ⟨t, c⟩ := s'
    rw [heightOfSlots]
    rcases List.mem_cons.mp h with rfl | h
    · exact Nat.le_max_left _ _
    · exact Nat.le_trans (ih h) (Nat.le_max_right _ _)

namespace Node

variable {n : Node} {tag : String} {depth : Nat}

theorem height_eq (n : Node) : n.height = heightOfSlots n.slots + 1 := by
  obtain ⟨t, as, slots, text⟩ := n
  rfl

theorem height_lt_of_mem_children {c : String × Node} (h : c ∈ n.children) :
    c.2.height < n.height := by
  obtain ⟨s, hs, -, hc⟩ := mem_childrenOf.mp h
  have hchild := height_le_heightOfChild hc
  have hslot := heightOfChild_le_heightOfSlots hs
  rw [n.height_eq]
  omega

theorem two_le_height (h : n.slots ≠ []) : 2 ≤ n.height := by
  obtain ⟨s, hs⟩ := List.exists_mem_of_ne_nil _ h
  have hchild := one_le_heightOfChild s.child
  have hslot := heightOfChild_le_heightOfSlots hs
  rw [n.height_eq]
  omega

/-- The children of a node that is not too deep are not too deep. -/
theorem fits_of_mem_children (h : depth + n.height ≤ maxNesting) {c : String × Node}
    (hc : c ∈ n.children) : depth + 1 + c.2.height ≤ maxNesting := by
  have hlt := height_lt_of_mem_children hc
  omega

theorem outlineLines_of_fits (h : depth + n.height ≤ maxNesting) (hn : n.slots ≠ [])
    (tag : String) : n.outlineLines tag depth =
      openLine depth tag n.attributes ::
        (n.children.flatMap fun c => c.2.outlineLines c.1 (depth + 1)) ++
        [closeLine depth tag] := by
  have htwo := two_le_height hn
  rw [outlineLines_of_ne_nil hn, if_neg (by omega)]

end Node

/-! ## Indents -/

theorem indentOf_itemLine (depth : Nat) (cs : List Char) :
    indentOf (itemLine depth cs) = 2 * depth := by
  simp [indentOf, itemLine]

theorem itemLine_add (depth k : Nat) (cs : List Char) :
    itemLine (depth + k) cs = "".pushn ' ' (2 * depth) ++ itemLine k cs := by
  apply String.toList_inj.mp
  simp [itemLine, toList_pushn, Nat.mul_add, ← List.replicate_append_replicate]

namespace Node

/-- Every line of a node is indented at least as far as the node. -/
theorem le_indentOf_of_mem (n : Node) (tag : String) (depth : Nat) {line : String}
    (h : line ∈ n.outlineLines tag depth) : 2 * depth ≤ indentOf line := by
  induction n using Node.induction_children generalizing tag depth with
  | step n ih =>
    by_cases hn : n.slots = []
    · rw [outlineLines_of_nil hn, List.mem_singleton] at h
      subst h
      exact Nat.le_of_eq (indentOf_itemLine depth _).symm
    · rw [outlineLines_of_ne_nil hn] at h
      simp only [List.cons_append, List.mem_cons, List.mem_append, List.not_mem_nil, or_false]
        at h
      rcases h with rfl | h | rfl
      · exact Nat.le_of_eq (indentOf_itemLine depth _).symm
      · split at h
        · rw [List.mem_singleton.mp h, dotsLine, indentOf_itemLine]
          omega
        · obtain ⟨c, hc, hline⟩ := List.mem_flatMap.mp h
          have hinner := ih c hc c.1 (depth + 1) hline
          omega
      · exact Nat.le_of_eq (indentOf_itemLine depth _).symm

/-- **Shift.** An outline from a lower level on is indented further. -/
theorem outlineLines_add (n : Node) (tag : String) (depth k : Nat)
    (h : depth + k + n.height ≤ maxNesting) :
    n.outlineLines tag (depth + k) =
      (n.outlineLines tag k).map ("".pushn ' ' (2 * depth) ++ ·) := by
  -- The shift stays the same down the levels, and the level it starts from grows.
  induction n using Node.induction_children generalizing tag k with
  | step n ih =>
    by_cases hn : n.slots = []
    · simp [outlineLines_of_nil hn, singleLine, itemLine_add]
    · have hchildren : (n.children.flatMap fun c => c.2.outlineLines c.1 (depth + k + 1)) =
          (n.children.flatMap fun c => c.2.outlineLines c.1 (k + 1)).map
            ("".pushn ' ' (2 * depth) ++ ·) := by
        rw [List.map_flatMap]
        apply List.flatMap_congr
        intro c hc
        exact ih c hc c.1 (k + 1) (fits_of_mem_children h hc)
      rw [outlineLines_of_fits h hn, outlineLines_of_fits (by omega) hn, hchildren]
      simp [openLine, closeLine, itemLine_add]

end Node

/-! ## The number of lines -/

/-- The lines that elements have in an outline, and the values in their slots. -/
def lineCount (ns : List Node) : Nat :=
  ns.countP (fun n => !n.hasChildren) + (ns.flatMap Node.slots).countP Slot.isValue +
    2 * ns.countP Node.hasChildren

@[simp] theorem lineCount_nil : lineCount [] = 0 := rfl

theorem lineCount_append (ns ms : List Node) :
    lineCount (ns ++ ms) = lineCount ns + lineCount ms := by
  simp only [lineCount, List.countP_append, List.flatMap_append]
  omega

theorem lineCount_cons (n : Node) (ns : List Node) :
    lineCount (n :: ns) =
      (if n.hasChildren then 2 else 1) + n.slots.countP Slot.isValue + lineCount ns := by
  simp only [lineCount, List.countP_cons, List.flatMap_cons, List.countP_append]
  cases n.hasChildren <;> simp <;> omega

theorem elementsOfNodes_eq (nodes : List Node) :
    elementsOfNodes nodes = nodes.flatMap Node.elements := by
  induction nodes with
  | nil => rfl
  | cons n nodes ih => rw [elementsOfNodes, ih, List.flatMap_cons]

theorem elementsOfChild_eq (c : Child) : elementsOfChild c = c.inner.flatMap Node.elements := by
  cases c with
  | element n => simp [elementsOfChild, Child.inner]
  | list ns => exact elementsOfNodes_eq ns
  | value t => rfl

theorem elementsOfSlots_eq (slots : List Slot) :
    elementsOfSlots slots = slots.flatMap fun s => s.child.inner.flatMap Node.elements := by
  induction slots with
  | nil => rfl
  | cons s slots ih =>
    obtain ⟨t, c⟩ := s
    rw [elementsOfSlots, ih, elementsOfChild_eq, List.flatMap_cons]
    rfl

theorem Node.elements_eq (n : Node) : n.elements = n :: elementsOfSlots n.slots := by
  obtain ⟨t, as, slots, text⟩ := n
  rfl

section

variable {depth : Nat}

theorem length_flatMap_outlineLines {tag : String} {nodes : List Node}
    (h : ∀ m ∈ nodes, (m.outlineLines tag depth).length = lineCount m.elements) :
    (nodes.flatMap fun m => m.outlineLines tag depth).length =
      lineCount (nodes.flatMap Node.elements) := by
  induction nodes with
  | nil => rfl
  | cons n nodes ih =>
    rw [List.flatMap_cons, List.flatMap_cons, List.length_append, lineCount_append,
      h n List.mem_cons_self, ih fun m hm => h m (List.mem_cons_of_mem _ hm)]

/-- A slot has the lines of its elements, or one line for its value. -/
theorem length_slot {s : Slot}
    (h : ∀ m ∈ s.child.inner, (m.outlineLines s.tag depth).length = lineCount m.elements) :
    ((s.child.nodes s.tag).flatMap fun m => m.outlineLines s.tag depth).length =
      lineCount (s.child.inner.flatMap Node.elements) + if s.isValue then 1 else 0 := by
  obtain ⟨t, c⟩ := s
  cases c with
  | element n => exact length_flatMap_outlineLines h
  | list ns => exact length_flatMap_outlineLines h
  | value text => simp [Slot.child, Slot.tag, Child.nodes, Child.inner, Slot.isValue,
      Node.outlineLines]

theorem length_children {slots : List Slot}
    (h : ∀ s ∈ slots, ∀ m ∈ s.child.inner,
      (m.outlineLines s.tag depth).length = lineCount m.elements) :
    ((childrenOf slots).flatMap fun c => c.2.outlineLines c.1 depth).length =
      lineCount (elementsOfSlots slots) + slots.countP Slot.isValue := by
  rw [elementsOfSlots_eq]
  induction slots with
  | nil => rfl
  | cons s slots ih =>
    have hslot := length_slot (h s List.mem_cons_self)
    have hrest := ih fun s' hs' => h s' (List.mem_cons_of_mem _ hs')
    simp only [childrenOf, List.flatMap_cons, List.flatMap_append, List.flatMap_map,
      List.length_append, lineCount_append, List.countP_cons] at hslot hrest ⊢
    omega

end

/-- **Number of lines.** -/
theorem Node.length_outlineLines (n : Node) (tag : String) (depth : Nat)
    (h : depth + n.height ≤ maxNesting) :
    (n.outlineLines tag depth).length = lineCount n.elements := by
  induction n using Node.induction_slots generalizing tag depth with
  | step n ih =>
    by_cases hn : n.slots = []
    · have hchildren : n.hasChildren = false := by simp [hasChildren, hn]
      rw [outlineLines_of_nil hn, n.elements_eq, lineCount_cons, hchildren, hn]
      rfl
    · have hhas : n.hasChildren = true := by simp [hasChildren, hn]
      have hchildren : (n.children.flatMap fun c => c.2.outlineLines c.1 (depth + 1)).length =
          lineCount (elementsOfSlots n.slots) + n.slots.countP Slot.isValue := by
        apply length_children
        intro s hs m hm
        have hchild : (s.tag, m) ∈ n.children :=
          mem_childrenOf.mpr ⟨s, hs, rfl, Child.mem_nodes_of_mem_inner hm s.tag⟩
        exact ih s hs m hm s.tag (depth + 1) (fits_of_mem_children h hchild)
      rw [outlineLines_of_fits h hn, n.elements_eq, lineCount_cons, hhas]
      simp only [List.length_append, List.length_cons, List.length_nil, hchildren, if_true]
      omega

/-! ## Matching lines -/

namespace Brackets

variable {depth : Nat}

/-- The lines of one node, and those of further nodes behind it. -/
theorem append {c : String × Node} {rest : List (String × Node)} {front lines : List String}
    (h : Brackets depth [c] front) (hrest : Brackets depth rest lines) :
    Brackets depth (c :: rest) (front ++ lines) := by
  cases h with
  | single hn hnil =>
    cases hnil
    exact .single hn hrest
  | pair hn hinner hclose hindent hnil =>
    cases hnil
    rw [List.cons_append, List.append_assoc]
    exact .pair hn hinner hclose hindent hrest

theorem flatMap {children : List (String × Node)}
    (h : ∀ c ∈ children, Brackets depth [c] (c.2.outlineLines c.1 depth)) :
    Brackets depth children (children.flatMap fun c => c.2.outlineLines c.1 depth) := by
  induction children with
  | nil => exact .nil
  | cons c children ih =>
    rw [List.flatMap_cons]
    exact (h c List.mem_cons_self).append (ih fun d hd => h d (List.mem_cons_of_mem _ hd))

end Brackets

/-- **Brackets.** -/
theorem Node.brackets_outlineLines (n : Node) (tag : String) (depth : Nat)
    (h : depth + n.height ≤ maxNesting) : Brackets depth [(tag, n)] (n.outlineLines tag depth) := by
  induction n using Node.induction_children generalizing tag depth with
  | step n ih =>
    by_cases hn : n.slots = []
    · rw [outlineLines_of_nil hn]
      exact .single hn .nil
    · rw [outlineLines_of_fits h hn]
      refine .pair hn (Brackets.flatMap ?_) ?_ ?_ .nil
      · intro c hc
        exact ih c hc c.1 (depth + 1) (fits_of_mem_children h hc)
      · rw [openLine, closeLine, indentOf_itemLine, indentOf_itemLine]
      · intro line hline
        obtain ⟨c, -, hline⟩ := List.mem_flatMap.mp hline
        have hindent := c.2.le_indentOf_of_mem c.1 (depth + 1) hline
        rw [openLine, indentOf_itemLine]
        omega

/-! ## What is cut off -/

theorem sketchOfNodes_eq (tag : String) (nodes : List Node) :
    sketchOfNodes tag nodes = nodes.map fun n => n.sketch tag := by
  induction nodes with
  | nil => rfl
  | cons n nodes ih => rw [sketchOfNodes, ih, List.map_cons]

theorem sketchOfChild_eq (tag : String) (c : Child) :
    sketchOfChild tag c = (c.nodes tag).map fun n => n.sketch tag := by
  cases c with
  | element n => rfl
  | list ns => exact sketchOfNodes_eq tag ns
  | value t => rfl

theorem sketchOfSlots_eq (slots : List Slot) :
    sketchOfSlots slots = (childrenOf slots).map fun c => c.2.sketch c.1 := by
  induction slots with
  | nil => rfl
  | cons s slots ih =>
    obtain ⟨t, c⟩ := s
    simp [sketchOfSlots, ih, sketchOfChild_eq, childrenOf, Slot.tag, Slot.child, Function.comp_def]

theorem linesOfSketches_eq (depth : Nat) (ks : List Sketch) :
    linesOfSketches depth ks = ks.flatMap fun k => k.lines depth := by
  induction ks with
  | nil => rfl
  | cons k ks ih => rw [linesOfSketches, ih, List.flatMap_cons]

theorem cutSketches_eq (depth : Nat) (ks : List Sketch) :
    cutSketches depth ks = ks.map fun k => k.cut depth := by
  induction ks with
  | nil => rfl
  | cons k ks ih => rw [cutSketches, ih, List.map_cons]

namespace Node

variable {n : Node}

theorem sketch_of_nil (h : n.slots = []) (tag : String) :
    n.sketch tag = .leaf tag n.attributes := by
  obtain ⟨t, as, slots, text⟩ := n
  have hslots : slots.isEmpty = true := List.isEmpty_iff.mpr h
  rw [Node.sketch, if_pos hslots]
  rfl

theorem sketch_of_ne_nil (h : n.slots ≠ []) (tag : String) :
    n.sketch tag = .branch tag n.attributes (n.children.map fun c => c.2.sketch c.1) := by
  obtain ⟨t, as, slots, text⟩ := n
  have hslots : ¬ slots.isEmpty = true := fun hnil => h (List.isEmpty_iff.mp hnil)
  rw [Node.sketch, if_neg hslots, sketchOfSlots_eq]
  rfl

/-- **Cut.** An outline shows what is left of the sketch. -/
theorem outlineLines_eq_cut (n : Node) (tag : String) (depth : Nat) :
    n.outlineLines tag depth = ((n.sketch tag).cut depth).lines depth := by
  induction n using Node.induction_children generalizing tag depth with
  | step n ih =>
    by_cases hn : n.slots = []
    · rw [outlineLines_of_nil hn, sketch_of_nil hn]
      rfl
    · rw [outlineLines_of_ne_nil hn, sketch_of_ne_nil hn, Sketch.cut, Sketch.lines]
      -- Both sides put the dots at the same level, counted from the children or from the node.
      by_cases hdeep : maxNesting ≤ depth + 1
      · rw [if_pos hdeep, if_pos (by omega)]
        rfl
      · rw [if_neg hdeep, if_neg (by omega), cutSketches_eq, linesOfSketches_eq, List.map_map,
          List.flatMap_map]
        congr 2
        apply List.flatMap_congr
        intro c hc
        exact ih c hc c.1 (depth + 1)

/-- Nothing is cut off from a node that is not too deep. -/
theorem cut_sketch (n : Node) (tag : String) (depth : Nat) (h : depth + n.height ≤ maxNesting) :
    (n.sketch tag).cut depth = n.sketch tag := by
  induction n using Node.induction_children generalizing tag depth with
  | step n ih =>
    by_cases hn : n.slots = []
    · rw [sketch_of_nil hn]
      rfl
    · have htwo := two_le_height hn
      rw [sketch_of_ne_nil hn, Sketch.cut, if_neg (by omega), cutSketches_eq, List.map_map]
      congr 1
      apply List.map_congr_left
      intro c hc
      exact ih c hc c.1 (depth + 1) (fits_of_mem_children h hc)

/-- **Outlines are bracket structures**, with dots for what is too deep. -/
theorem outline_structure (n : Node) (tag : String) (depth : Nat) :
    (depth + n.height ≤ maxNesting → n.Outlined tag depth) ∧
      n.outlineLines tag depth = ((n.sketch tag).cut depth).lines depth := by
  refine ⟨?_, n.outlineLines_eq_cut tag depth⟩
  intro h
  refine ⟨?_, n.length_outlineLines tag depth h, n.brackets_outlineLines tag depth h,
    fun hn => outlineLines_of_fits h hn tag, ?_⟩
  · exact n.outlineLines_add tag depth 0 h
  · rw [n.outlineLines_eq_cut, n.cut_sketch tag depth h]

/-- Three levels, with an element of two children of one tag, and a value. -/
def garden : Node :=
  .mk "Root" [("ID", "Main")]
    [.mk "Seq" (.element (.mk "Seq" []
      [.mk "Leaf" (.list [.mk "Leaf" [("v", "A")] [] none, .mk "Leaf" [("v", "B")] [] none])]
      none)),
      .mk "note" (.value "text")] none

/-- The lines of the garden, and those that are left from the last level but one on. -/
theorem outline_structure_garden :
    0 + garden.height ≤ maxNesting ∧ garden.Outlined "Root" 0 ∧
      garden.outlineLines "Root" 0 =
        ["- <Root ID=\"Main\">", "  - <Seq>", "    - <Leaf v=\"A\" />", "    - <Leaf v=\"B\" />",
          "  - </Seq>", "  - <note />", "- </Root>"] ∧
      garden.outlineLines "Root" 254 = ((garden.sketch "Root").cut 254).lines 254 ∧
      garden.outlineLines "Root" 254 =
        ["- <Root ID=\"Main\">", "  - <Seq>", "    - ...", "  - </Seq>", "  - <note />",
          "- </Root>"].map ("".pushn ' ' (2 * 254) ++ ·) := by
  have hfits : 0 + garden.height ≤ maxNesting := by decide
  exact ⟨hfits, (outline_structure garden "Root" 0).1 hfits, by decide,
    (outline_structure garden "Root" 254).2, by decide +kernel⟩

end Node

end BehaviorIndex.Markup
