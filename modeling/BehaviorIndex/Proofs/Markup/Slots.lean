import BehaviorIndex.Markup.Node
import Mathlib.Data.List.Nodup

/-!
# Children grouped by tag

The slots of a node are its children grouped by tag. `Child.ofNodes` is the form in which a slot
keeps the children of its tag, and `Groups children slots` says that the slots are those of the
children: one for each tag that occurs, with all children of that tag in their order.

**Theorem (`Node.groups_assemble`).** The slots of a node that is assembled from its children group
these children.

A child that comes in as the second of its tag finds its slot in one of two forms, and must bring
back what a value has dropped. It can, because a value stands for exactly one node
(`Child.nodes_ofNodes`).
-/

namespace BehaviorIndex.Markup

/-- The form in which the children of one tag are kept. -/
def Child.ofNodes : List Node → Child
  | [n] => .ofNode n
  | ns => .list ns

/-- The slots hold the children, each under its tag. -/
structure Groups (children : List Node) (slots : List Slot) : Prop where
  nodup : (slots.map Slot.tag).Nodup
  mem_tags : ∀ tag, tag ∈ slots.map Slot.tag ↔ tag ∈ children.map Node.tag
  child : ∀ s ∈ slots, s.child = .ofNodes (children.filter fun c => c.tag = s.tag)

/-! ## The forms of a slot -/

theorem Node.bareText?_eq_some {n : Node} {t : String} (h : n.bareText? = some t) :
    n = .mk n.tag [] [] (some t) := by
  unfold bareText? at h
  split at h
  · cases h
    rfl
  · cases h

theorem Child.nodes_ofNode (n : Node) : (Child.ofNode n).nodes n.tag = [n] := by
  unfold Child.ofNode
  split
  · next t h =>
    rw [Child.nodes, ← Node.bareText?_eq_some h]
  · rfl

/-- No form loses a child. -/
theorem Child.nodes_ofNodes {ns : List Node} {tag : String} (h : ∀ n ∈ ns, n.tag = tag) :
    (Child.ofNodes ns).nodes tag = ns := by
  match ns with
  | [n] =>
    obtain rfl := h n List.mem_cons_self
    exact nodes_ofNode n
  | [] => rfl
  | _ :: _ :: _ => rfl

theorem Child.ofNodes_concat {ns : List Node} (hne : ns ≠ []) (n : Node) :
    Child.ofNodes (ns ++ [n]) = .list (ns ++ [n]) := by
  match ns with
  | [] => exact absurd rfl hne
  | [_] => rfl
  | _ :: _ :: _ => rfl

theorem Child.ofNodes_eq_element {ns : List Node} {n : Node} (h : Child.ofNodes ns = .element n) :
    ns = [n] ∧ n.bareText? = none := by
  match ns with
  | [m] =>
    simp only [Child.ofNodes, Child.ofNode] at h
    split at h
    · cases h
    · next hbare =>
      cases h
      exact ⟨rfl, hbare⟩
  | [] => cases h
  | _ :: _ :: _ => cases h

theorem Child.ofNodes_eq_list {ns ms : List Node} (hne : ns ≠ [])
    (h : Child.ofNodes ns = .list ms) : ns = ms ∧ 2 ≤ ms.length := by
  match ns with
  | [m] =>
    simp only [Child.ofNodes, Child.ofNode] at h
    split at h <;> cases h
  | [] => exact absurd rfl hne
  | _ :: _ :: _ =>
    cases h
    exact ⟨rfl, by simp⟩

theorem Child.ofNodes_eq_value {ns : List Node} {t : String} (h : Child.ofNodes ns = .value t) :
    ∃ n, ns = [n] ∧ n.bareText? = some t := by
  match ns with
  | [m] =>
    simp only [Child.ofNodes, Child.ofNode] at h
    split at h
    · next hbare =>
      cases h
      exact ⟨m, rfl, hbare⟩
    · cases h
  | [] => cases h
  | _ :: _ :: _ => cases h

/-! ## One further child -/

theorem Slot.tag_push (s : Slot) (n : Node) : (s.push n).tag = s.tag := rfl

/-- The first child of its tag gets a slot at the end. -/
theorem Slot.insert_of_notMem {n : Node} {slots : List Slot} (h : n.tag ∉ slots.map Slot.tag) :
    Slot.insert n slots = slots ++ [.mk n.tag (.ofNode n)] := by
  induction slots with
  | nil => rfl
  | cons s slots ih =>
    simp only [List.map_cons, List.mem_cons, not_or] at h
    rw [Slot.insert, if_neg (Ne.symm h.1), ih h.2, List.cons_append]

/-- A later child goes to the slot of its tag. -/
theorem Slot.insert_of_mem {n : Node} {slots : List Slot} (h : n.tag ∈ slots.map Slot.tag) :
    ∃ front s back, slots = front ++ s :: back ∧ s.tag = n.tag ∧
      Slot.insert n slots = front ++ s.push n :: back := by
  induction slots with
  | nil => cases h
  | cons s slots ih =>
    rw [Slot.insert]
    by_cases hs : s.tag = n.tag
    · exact ⟨[], s, slots, rfl, hs, if_pos hs⟩
    · obtain ⟨front, s', back, hsplit, hs', hinsert⟩ :=
        ih ((List.mem_cons.mp h).resolve_left (Ne.symm hs))
      refine ⟨s :: front, s', back, by rw [hsplit]; rfl, hs', ?_⟩
      rw [if_neg hs, hinsert, List.cons_append]

section

variable {children : List Node} {slots : List Slot}

theorem filter_concat_of_ne {n : Node} {tag : String} (h : n.tag ≠ tag) :
    (children ++ [n]).filter (fun c => c.tag = tag) = children.filter fun c => c.tag = tag := by
  simp [List.filter_append, h]

theorem filter_concat_self (n : Node) :
    (children ++ [n]).filter (fun c => c.tag = n.tag) =
      (children.filter fun c => c.tag = n.tag) ++ [n] := by
  simp [List.filter_append]

namespace Groups

/-- A slot has a child. -/
theorem ne_nil (h : Groups children slots) {s : Slot} (hs : s ∈ slots) :
    (children.filter fun c => c.tag = s.tag) ≠ [] := by
  obtain ⟨c, hc, htag⟩ := List.mem_map.mp ((h.mem_tags s.tag).mp (List.mem_map_of_mem hs))
  exact List.ne_nil_of_mem (List.mem_filter.mpr ⟨hc, by simpa using htag⟩)

/-- A slot stands for the children of its tag, in their order. -/
theorem nodes_child (h : Groups children slots) {s : Slot} (hs : s ∈ slots) :
    s.child.nodes s.tag = children.filter fun c => c.tag = s.tag := by
  rw [h.child s hs]
  exact Child.nodes_ofNodes fun c hc => by simpa using (List.mem_filter.mp hc).2

theorem push (h : Groups children slots) {s : Slot} (hs : s ∈ slots) {n : Node}
    (htag : s.tag = n.tag) :
    (s.push n).child = .ofNodes ((children ++ [n]).filter fun c => c.tag = s.tag) := by
  have hne := h.ne_nil hs
  rw [Slot.push, Slot.child, h.nodes_child hs]
  rw [htag] at hne ⊢
  rw [filter_concat_self, Child.ofNodes_concat hne]

/-- The slots of other tags are not affected by a child. -/
theorem child_of_ne (h : Groups children slots) {s : Slot} (hs : s ∈ slots) {n : Node}
    (hne : n.tag ≠ s.tag) :
    s.child = .ofNodes ((children ++ [n]).filter fun c => c.tag = s.tag) := by
  rw [filter_concat_of_ne hne]
  exact h.child s hs

theorem insert_of_mem (h : Groups children slots) {n : Node} (hmem : n.tag ∈ slots.map Slot.tag) :
    Groups (children ++ [n]) (Slot.insert n slots) := by
  obtain ⟨front, s, back, rfl, htag, hinsert⟩ := Slot.insert_of_mem hmem
  have htags : (front ++ s.push n :: back).map Slot.tag = (front ++ s :: back).map Slot.tag := by
    simp [Slot.tag_push]
  have hnodup := h.nodup
  rw [List.map_append, List.map_cons, List.nodup_middle, List.nodup_cons, htag] at hnodup
  rw [hinsert]
  refine ⟨htags ▸ h.nodup, fun tag => ?_, fun s' hs' => ?_⟩
  · rw [htags, h.mem_tags, List.map_append, List.mem_append, List.map_singleton,
      List.mem_singleton]
    constructor
    · exact .inl
    · rintro (htag' | rfl)
      · exact htag'
      · exact (h.mem_tags n.tag).mp hmem
  · -- The slot of the child, or one of the others, none of which has its tag.
    rcases List.mem_append.mp hs' with hs' | hs'
    · refine h.child_of_ne (List.mem_append_left _ hs') fun heq => hnodup.1 ?_
      exact List.mem_append_left _ (heq ▸ List.mem_map_of_mem hs')
    · rcases List.mem_cons.mp hs' with rfl | hs'
      · exact h.push (List.mem_append_right _ List.mem_cons_self) htag
      · refine h.child_of_ne (List.mem_append_right _ (List.mem_cons_of_mem _ hs')) fun heq =>
          hnodup.1 ?_
        exact List.mem_append_right _ (heq ▸ List.mem_map_of_mem hs')

theorem insert_of_notMem (h : Groups children slots) {n : Node}
    (hmem : n.tag ∉ slots.map Slot.tag) : Groups (children ++ [n]) (Slot.insert n slots) := by
  have hnone : (children.filter fun c => c.tag = n.tag) = [] := by
    rw [h.mem_tags] at hmem
    refine List.filter_eq_nil_iff.mpr fun c hc heq => hmem ?_
    exact List.mem_map.mpr ⟨c, hc, by simpa using heq⟩
  rw [Slot.insert_of_notMem hmem]
  refine ⟨?_, fun tag => ?_, fun s' hs' => ?_⟩
  · rw [List.map_append, List.nodup_append]
    refine ⟨h.nodup, List.nodup_singleton _, ?_⟩
    rintro tag htag _ hn rfl
    rw [List.map_singleton, List.mem_singleton] at hn
    rw [hn] at htag
    exact hmem htag
  · rw [List.map_append, List.map_append, List.mem_append, List.mem_append, h.mem_tags]
    rfl
  · rcases List.mem_append.mp hs' with hs' | hs'
    · exact h.child_of_ne hs' fun heq => hmem (heq ▸ List.mem_map_of_mem hs')
    · rw [List.mem_singleton] at hs'
      subst hs'
      rw [Slot.tag, filter_concat_self, hnone]
      rfl

/-- **One further child.** Inserting a child keeps the slots those of the children. -/
theorem insert (h : Groups children slots) (n : Node) :
    Groups (children ++ [n]) (Slot.insert n slots) := by
  by_cases hmem : n.tag ∈ slots.map Slot.tag
  · exact h.insert_of_mem hmem
  · exact h.insert_of_notMem hmem

theorem nil : Groups [] [] := ⟨List.nodup_nil, by simp, by simp⟩

/-- **All children.** Inserting children one after the other groups them. -/
theorem foldl (h : Groups children slots) (more : List Node) :
    Groups (children ++ more) (more.foldl (fun ss c => Slot.insert c ss) slots) := by
  induction more generalizing children slots with
  | nil =>
    rw [List.append_nil]
    exact h
  | cons n more ih =>
    rw [List.append_cons]
    exact ih (h.insert n)

end Groups

end

/-- The slots of an assembled node group its children. -/
theorem Node.groups_assemble (tag : String) (as : Attributes) (children : List Node)
    (text : Option String) : Groups children (Node.assemble tag as children text).slots :=
  Groups.nil.foldl children

end BehaviorIndex.Markup
