import BehaviorIndex.Markup.Entity
import BehaviorIndex.Proofs.Markup.StartTags

/-!
# The entities of an element

Folding an element into a node groups its children by tag, so the entities of the node come in
another order than in the document. But none is lost and none is added: a child that is kept as a
value has no attributes, so it is no entity, and in an element without a fault none is below the
deepest level.

**Theorem (`Element.names_perm`).** The names of the entities of the node are those that the start
tags of the element give, up to their order.
-/

namespace BehaviorIndex.Markup

section

variable (tag idAttribute : String)

/-- The name that a start tag gives to its element, if it makes it an entity. -/
def nameOf? : String × Attributes → Option String
  | (t, as) => if t = tag then as.lookup idAttribute else none

/-! ## Slots -/

theorem entitiesOfNodes_append (depth : Nat) (nodes more : List Node) :
    entitiesOfNodes tag idAttribute depth (nodes ++ more) =
      entitiesOfNodes tag idAttribute depth nodes ++
        entitiesOfNodes tag idAttribute depth more := by
  induction nodes with
  | nil => rfl
  | cons n nodes ih => simp [entitiesOfNodes, ih]

/-- A node with a text and nothing else holds no entity. -/
theorem entitiesFrom_bareText (depth : Nat) (t text : String) :
    (Node.mk t [] [] (some text)).entitiesFrom tag idAttribute depth = [] := by
  simp [Node.entitiesFrom, Node.isEntity, Node.attribute?, Node.attributes, entitiesOfSlots]

/-- A child holds the entities of the nodes it stands for. -/
theorem entitiesOfChild_eq (depth : Nat) (t : String) (c : Child) :
    entitiesOfChild tag idAttribute depth c =
      entitiesOfNodes tag idAttribute depth (c.nodes t) := by
  cases c with
  | element n => simp [entitiesOfChild, Child.nodes, entitiesOfNodes]
  | list ns => rfl
  | value text =>
    simp [entitiesOfChild, Child.nodes, entitiesOfNodes, entitiesFrom_bareText]

theorem entitiesOfChild_ofNode (depth : Nat) (n : Node) :
    entitiesOfChild tag idAttribute depth (Child.ofNode n) =
      n.entitiesFrom tag idAttribute depth := by
  unfold Child.ofNode
  split
  · next text h =>
    unfold Node.bareText? at h
    split at h
    · cases h
      rw [entitiesFrom_bareText, entitiesOfChild]
    · cases h
  · rw [entitiesOfChild]

/-- Adding a child adds its entities. -/
theorem entitiesOfSlots_insert (depth : Nat) (n : Node) (slots : List Slot) :
    (entitiesOfSlots tag idAttribute depth (Slot.insert n slots)).Perm
      (entitiesOfSlots tag idAttribute depth slots ++ n.entitiesFrom tag idAttribute depth) := by
  induction slots with
  | nil => simp [Slot.insert, entitiesOfSlots, entitiesOfChild_ofNode]
  | cons s slots ih =>
    obtain ⟨t, c⟩ := s
    rw [Slot.insert]
    split
    · simp only [Slot.push, Slot.tag, Slot.child, entitiesOfSlots, entitiesOfChild_eq _ _ _ t c]
      simp only [entitiesOfChild, entitiesOfNodes_append, entitiesOfNodes, List.append_nil,
        List.append_assoc]
      exact List.Perm.append_left _ List.perm_append_comm
    · simp only [entitiesOfSlots, List.append_assoc]
      exact List.Perm.append_left _ ih

theorem entitiesOfSlots_foldl (depth : Nat) (children : List Node) (slots : List Slot) :
    (entitiesOfSlots tag idAttribute depth
        (children.foldl (fun ss c => Slot.insert c ss) slots)).Perm
      (entitiesOfSlots tag idAttribute depth slots ++
        entitiesOfNodes tag idAttribute depth children) := by
  induction children generalizing slots with
  | nil => simp [entitiesOfNodes]
  | cons n children ih =>
    rw [List.foldl_cons, entitiesOfNodes, ← List.append_assoc]
    exact (ih _).trans ((entitiesOfSlots_insert tag idAttribute depth n slots).append_right _)

/-! ## Elements -/

/-- The names of the entities in a tree whose root is at level `depth`. -/
def Node.namesFrom (depth : Nat) (n : Node) : List String :=
  (n.entitiesFrom tag idAttribute depth).filterMap (·.attribute? idAttribute)

def namesOfNodes (depth : Nat) (nodes : List Node) : List String :=
  (entitiesOfNodes tag idAttribute depth nodes).filterMap (·.attribute? idAttribute)

/-- The name of a node comes before the names of its children. -/
theorem namesFrom_assemble {depth : Nat} (hdepth : depth < maxNesting) (t : String)
    (as : Attributes) (children : List Node) (text : Option String) :
    ((Node.assemble t as children text).namesFrom tag idAttribute depth).Perm
      ([(t, as)].filterMap (nameOf? tag idAttribute) ++
        namesOfNodes tag idAttribute (depth + 1) children) := by
  have hslots := entitiesOfSlots_foldl tag idAttribute (depth + 1) children []
  rw [Node.namesFrom, Node.assemble, Node.entitiesFrom, if_neg (Nat.not_le.mpr hdepth)]
  rw [List.filterMap_append]
  refine List.Perm.append ?_ (hslots.filterMap _)
  by_cases ht : t = tag
  · subst ht
    cases hname : as.lookup idAttribute <;>
      simp [Node.isEntity, Node.tag, Node.attribute?, Node.attributes, nameOf?, hname]
  · simp [Node.isEntity, Node.tag, nameOf?, ht]

mutual

/-- **None is lost.** The names of the entities are those that the start tags give. -/
theorem Element.names_perm {depth : Nat} (e : Element) (h : e.fault? (depth + 1) = none) :
    (e.toNode.namesFrom tag idAttribute depth).Perm
      (e.openings.filterMap (nameOf? tag idAttribute)) := by
  match e with
  | .mk t as items stray =>
    rw [Element.fault?] at h
    split at h
    · cases h
    · next hdepth =>
      have hitems := namesOfItems_perm items (Option.or_eq_none_iff.mp h).1
      rw [Element.toNode, Element.openings, ← List.singleton_append,
        List.filterMap_append]
      exact (namesFrom_assemble tag idAttribute (by omega) t as _ _).trans (hitems.append_left _)

theorem namesOfItems_perm {depth : Nat} (items : List Item)
    (h : faultOfItems (depth + 1) items = none) :
    (namesOfNodes tag idAttribute depth (nodesOfItems items)).Perm
      ((openingsOfItems items).filterMap (nameOf? tag idAttribute)) := by
  match items with
  | [] => exact .refl _
  | .text s :: items =>
    rw [faultOfItems] at h
    rw [nodesOfItems, openingsOfItems]
    exact namesOfItems_perm items h
  | .element e :: items =>
    rw [faultOfItems, Option.or_eq_none_iff] at h
    rw [nodesOfItems, openingsOfItems, namesOfNodes, entitiesOfNodes, List.filterMap_append,
      List.filterMap_append]
    exact (Element.names_perm e h.1).append (namesOfItems_perm items h.2)

end

end

end BehaviorIndex.Markup
