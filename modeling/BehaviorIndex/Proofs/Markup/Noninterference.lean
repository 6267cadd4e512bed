import BehaviorIndex.Proofs.Markup.Children
import BehaviorIndex.Proofs.Markup.Grouping
import Mathlib.Data.List.Forall2

/-!
# Outlines do not depend on texts

**Theorem (`Tree.outline_of_sameShape`).** Two trees that differ in their texts only have the same
outline, under every tag and from every level on.

The nodes of the two trees need not look alike. An only child that has nothing but a text is kept as
a value, and the same child without the text as an element. So the proof does not compare slots. It
compares the children that the slots stand for: these are the children of the tree, grouped by tag
(`Node.children_foldl_push`), and the groups depend on the tags alone. Nodes that are shown alike
(`Node.ShownAlike`) thus make their parents shown alike (`Node.shownAlike_foldl_push`), and the
theorem follows by induction over the trees.
-/

namespace BehaviorIndex.Markup

/-- An element with its children in document order, before they are grouped by tag. -/
inductive Tree where
  | mk (tag : String) (attributes : Attributes) (children : List Tree) (text : Option String)

mutual

/-- The node of a tree: the nodes of the children are pushed into it one after the other. -/
def Tree.toNode : Tree → Node
  | .mk tag as children text => (nodesOfTrees children).foldl Node.push (.mk tag as [] text)

def nodesOfTrees : List Tree → List Node
  | [] => []
  | t :: ts => t.toNode :: nodesOfTrees ts

end

mutual

/-- The trees have the same tags, attributes and children everywhere, whatever their texts. -/
def Tree.SameShape : Tree → Tree → Prop
  | .mk tag as children _, .mk tag' as' children' _ =>
    tag = tag' ∧ as = as' ∧ SameShapes children children'

def SameShapes : List Tree → List Tree → Prop
  | [], [] => True
  | t :: ts, t' :: ts' => t.SameShape t' ∧ SameShapes ts ts'
  | _, _ => False

end

namespace Node

/-- The nodes have the same tag and the same outlines. -/
def ShownAlike (m n : Node) : Prop :=
  m.tag = n.tag ∧ ∀ tag depth, m.outlineLines tag depth = n.outlineLines tag depth

/-! ## Children that are pushed into a node -/

section

variable {p : Node}

theorem slots_foldl_push_eq_nil_iff (hp : p.slots = []) (children : List Node) :
    (children.foldl push p).slots = [] ↔ children = [] := by
  constructor
  · intro hslots
    have htags := map_tag_foldl_push hp children
    rw [hslots, List.map_nil] at htags
    rw [List.eq_nil_iff_forall_not_mem]
    intro c hc
    have hmem : c.tag ∈ (children.map Node.tag).eraseDups :=
      List.mem_eraseDups.mpr (List.mem_map_of_mem hc)
    rw [← htags] at hmem
    cases hmem
  · rintro rfl
    exact hp

/-- The children come back grouped by tag, in the order in which the tags first occur. -/
theorem children_foldl_push (hp : p.slots = []) (children : List Node) :
    (children.foldl push p).children = (children.map Node.tag).eraseDups.flatMap fun tag =>
      (children.filter fun c => c.tag = tag).map fun c => (tag, c) := by
  have hgroups := groups_foldl_push hp children
  rw [← map_tag_foldl_push hp children, List.flatMap_map]
  apply List.flatMap_congr
  intro s hs
  rw [hgroups.nodes_child hs]

end

/-! ## Nodes that are shown alike -/

section

variable {ms ns : List Node}

theorem ShownAlike.map_tag (h : List.Forall₂ ShownAlike ms ns) :
    ms.map Node.tag = ns.map Node.tag := by
  induction h with
  | nil => rfl
  | cons hn _ ih => rw [List.map_cons, List.map_cons, hn.1, ih]

/-- The children of one tag are shown alike. -/
theorem ShownAlike.flatMap_filter (h : List.Forall₂ ShownAlike ms ns) (tag : String)
    (depth : Nat) :
    ((ms.filter fun c => c.tag = tag).flatMap fun c => c.outlineLines tag depth) =
      (ns.filter fun c => c.tag = tag).flatMap fun c => c.outlineLines tag depth := by
  induction h with
  | nil => rfl
  | @cons m n ms ns hn _ ih =>
    by_cases htag : n.tag = tag
    · simp [hn.1, htag, hn.2, ih]
    · simp [hn.1, htag, ih]

/-- A node is shown by its attributes and its children. -/
theorem outlineLines_congr {m n : Node} (hattributes : m.attributes = n.attributes)
    (hslots : m.slots = [] ↔ n.slots = [])
    (hchildren : ∀ depth, (m.children.flatMap fun c => c.2.outlineLines c.1 depth) =
      n.children.flatMap fun c => c.2.outlineLines c.1 depth) (tag : String) (depth : Nat) :
    m.outlineLines tag depth = n.outlineLines tag depth := by
  by_cases hnil : m.slots = []
  · rw [outlineLines_of_nil hnil, outlineLines_of_nil (hslots.mp hnil), hattributes]
  · have hnil' : n.slots ≠ [] := fun h => hnil (hslots.mpr h)
    rw [outlineLines_of_ne_nil hnil, outlineLines_of_ne_nil hnil', hattributes,
      hchildren (depth + 1)]

/-- **One level.** Nodes with the same tag and attributes are shown alike if their children are,
whatever their texts. -/
theorem shownAlike_foldl_push (tag : String) (as : Attributes) (text text' : Option String)
    (h : List.Forall₂ ShownAlike ms ns) :
    ShownAlike (ms.foldl push (mk tag as [] text)) (ns.foldl push (mk tag as [] text')) := by
  have hp : ∀ t, (mk tag as [] t).slots = [] := fun _ => rfl
  refine ⟨?_, outlineLines_congr ?_ ?_ ?_⟩
  · rw [foldl_push_eq _ tag_push, foldl_push_eq _ tag_push]
    rfl
  · rw [foldl_push_eq _ attributes_push, foldl_push_eq _ attributes_push]
    rfl
  · rw [slots_foldl_push_eq_nil_iff (hp _), slots_foldl_push_eq_nil_iff (hp _),
      ← List.length_eq_zero_iff, ← List.length_eq_zero_iff, h.length_eq]
  · -- The groups are the same on both sides, and within a group the children are shown alike.
    intro depth
    rw [children_foldl_push (hp _), children_foldl_push (hp _), ShownAlike.map_tag h]
    simp only [List.flatMap_assoc, List.flatMap_map]
    apply List.flatMap_congr
    intro tag _
    exact ShownAlike.flatMap_filter h tag depth

end

end Node

/-! ## Trees -/

mutual

theorem Tree.SameShape.shownAlike {t u : Tree} (h : t.SameShape u) :
    t.toNode.ShownAlike u.toNode := by
  match t, u with
  | .mk tag as children text, .mk tag' as' children' text' =>
    rw [Tree.SameShape] at h
    obtain ⟨rfl, rfl, hchildren⟩ := h
    rw [Tree.toNode, Tree.toNode]
    exact Node.shownAlike_foldl_push tag as text text' hchildren.shownAlike

theorem SameShapes.shownAlike {ts us : List Tree} (h : SameShapes ts us) :
    List.Forall₂ Node.ShownAlike (nodesOfTrees ts) (nodesOfTrees us) := by
  match ts, us with
  | [], [] =>
    rw [nodesOfTrees]
    exact .nil
  | t :: ts, u :: us =>
    rw [SameShapes] at h
    rw [nodesOfTrees, nodesOfTrees]
    exact .cons h.1.shownAlike h.2.shownAlike

end

/-- **Outlines do not depend on texts.** Trees that differ in their texts only have the same
outline. -/
theorem Tree.outline_of_sameShape {t u : Tree} (h : t.SameShape u) (tag : String) (depth : Nat) :
    t.toNode.outlineLines tag depth = u.toNode.outlineLines tag depth :=
  h.shownAlike.2 tag depth

/-- A tree with two notes of one tag, a goal and a step, each with a text or without. -/
def Tree.plan (own goal first second inner : Option String) : Tree :=
  .mk "Plan" [("ID", "p")]
    [.mk "note" [] [] first, .mk "goal" [] [] goal, .mk "step" [("n", "1")] [.mk "note" [] [] inner]
      own, .mk "note" [] [] second] own

/-- The goal is a value in one node and an element in the other; from level 254 on the children of
the step are below the deepest level. -/
theorem Tree.outline_of_sameShape_plan :
    (plan none (some "g") (some "a") none (some "i")).SameShape
        (plan (some "o") none none (some "b") none) ∧
      (plan none (some "g") (some "a") none (some "i")).toNode.outlineLines "Plan" 254 =
        (plan (some "o") none none (some "b") none).toNode.outlineLines "Plan" 254 ∧
      ((plan none (some "g") (some "a") none (some "i")).toNode.slots.map Slot.child)[1]? =
        some (.value "g") ∧
      ((plan (some "o") none none (some "b") none).toNode.slots.map Slot.child)[1]? =
        some (.element (.bare "goal")) := by
  have hshape : (plan none (some "g") (some "a") none (some "i")).SameShape
      (plan (some "o") none none (some "b") none) := by
    simp [plan, SameShape, SameShapes]
  exact ⟨hshape, Tree.outline_of_sameShape hshape "Plan" 254, rfl, rfl⟩

end BehaviorIndex.Markup
