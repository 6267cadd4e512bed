import BehaviorIndex.Proofs.Markup.Slots
import Mathlib.Data.List.Induction

/-!
# Pushing children

**Theorem (`Node.arranged_foldl_push`).** Children that are pushed one after the other into a node
without children end up in its slots, and nothing else about the node changes. The slots come in the
order in which their tags first occur among the children. Each slot stands for all children of its
tag, in their order, and its form tells how many these are and whether there is more to an only
child than its text.

`Groups` says which slots there are and what they hold. The order of the slots is not part of it:
`map_tag_insert` says what a child does to the list of tags, and `List.eraseDups` does the same to a
list that grows at its end.
-/

namespace BehaviorIndex.Markup

namespace Node

@[simp] theorem tag_push (p c : Node) : (p.push c).tag = p.tag := by
  cases p
  rfl

@[simp] theorem attributes_push (p c : Node) : (p.push c).attributes = p.attributes := by
  cases p
  rfl

@[simp] theorem text_push (p c : Node) : (p.push c).text = p.text := by
  cases p
  rfl

@[simp] theorem slots_push (p c : Node) : (p.push c).slots = Slot.insert c p.slots := by
  cases p
  rfl

/-- The node is nothing but a tag and a text. -/
def IsBareText (n : Node) : Prop := n.attributes = [] ∧ n.slots = [] ∧ n.text.isSome

theorem isBareText_iff (n : Node) : n.IsBareText ↔ n.bareText?.isSome := by
  obtain ⟨tag, as, ss, text⟩ := n
  cases as with
  | cons a as => simp [IsBareText, bareText?, attributes]
  | nil =>
    cases ss with
    | cons s ss => simp [IsBareText, bareText?, slots]
    | nil => cases text <;> simp [IsBareText, bareText?, attributes, slots, Node.text]

end Node

/-! ## Tags in the order of first occurrence -/

/-- The tag of a child comes last, unless it is there already. -/
theorem map_tag_insert (n : Node) (slots : List Slot) :
    (Slot.insert n slots).map Slot.tag =
      slots.map Slot.tag ++ if n.tag ∈ slots.map Slot.tag then [] else [n.tag] := by
  split
  · next hmem =>
    obtain ⟨front, s, back, rfl, -, hinsert⟩ := Slot.insert_of_mem hmem
    simp [hinsert, Slot.tag_push]
  · next hmem =>
    rw [Slot.insert_of_notMem hmem]
    simp [Slot.tag]

theorem eraseDups_concat (tags : List String) (tag : String) :
    (tags ++ [tag]).eraseDups = tags.eraseDups ++ if tag ∈ tags then [] else [tag] := by
  rw [List.eraseDups_append]
  split
  · next hmem => simp [List.removeAll, hmem]
  · next hmem => simp [List.removeAll, hmem, List.eraseDups_cons]

/-! ## The form of a slot -/

section

variable {ns : List Node}

/-- A list holds two children or more. -/
theorem Child.exists_list_iff (hne : ns ≠ []) :
    (∃ ms, Child.ofNodes ns = .list ms) ↔ 2 ≤ ns.length := by
  constructor
  · rintro ⟨ms, h⟩
    obtain ⟨rfl, hlength⟩ := Child.ofNodes_eq_list hne h
    exact hlength
  · intro hlength
    match ns with
    | _ :: _ :: _ => exact ⟨_, rfl⟩

/-- A value keeps the text of an only child that has nothing else. -/
theorem Child.exists_value_iff :
    (∃ t, Child.ofNodes ns = .value t) ↔ ∃ n, ns = [n] ∧ n.IsBareText := by
  constructor
  · rintro ⟨t, h⟩
    obtain ⟨n, rfl, hbare⟩ := Child.ofNodes_eq_value h
    exact ⟨n, rfl, n.isBareText_iff.mpr (by rw [hbare]; rfl)⟩
  · rintro ⟨n, rfl, hbare⟩
    obtain ⟨t, ht⟩ := Option.isSome_iff_exists.mp (n.isBareText_iff.mp hbare)
    exact ⟨t, by rw [Child.ofNodes, Child.ofNode, ht]⟩

/-- An element is any other only child. -/
theorem Child.exists_element_iff :
    (∃ m, Child.ofNodes ns = .element m) ↔ ∃ n, ns = [n] ∧ ¬ n.IsBareText := by
  constructor
  · rintro ⟨n, h⟩
    obtain ⟨rfl, hbare⟩ := Child.ofNodes_eq_element h
    exact ⟨n, rfl, by simp [n.isBareText_iff, hbare]⟩
  · rintro ⟨n, rfl, hbare⟩
    rw [n.isBareText_iff, Option.not_isSome_iff_eq_none] at hbare
    exact ⟨n, by rw [Child.ofNodes, Child.ofNode, hbare]⟩

end

namespace Node

/-- The node `q` is the node `p` with its children in the slots. -/
structure Arranged (p : Node) (children : List Node) (q : Node) : Prop where
  tag : q.tag = p.tag
  attributes : q.attributes = p.attributes
  text : q.text = p.text
  /-- One slot for each tag, in the order of first occurrence. -/
  tags : q.slots.map Slot.tag = (children.map Node.tag).eraseDups
  /-- The slots of a tag stand for the children of the tag, in their order. -/
  nodes : ∀ tag, (q.slots.filter fun s => s.tag = tag).flatMap (fun s => s.child.nodes s.tag) =
    children.filter fun c => c.tag = tag
  list_iff : ∀ s ∈ q.slots, (∃ ns, s.child = .list ns) ↔
    2 ≤ (children.filter fun c => c.tag = s.tag).length
  value_iff : ∀ s ∈ q.slots, (∃ t, s.child = .value t) ↔
    ∃ c, (children.filter fun c => c.tag = s.tag) = [c] ∧ c.IsBareText
  element_iff : ∀ s ∈ q.slots, (∃ n, s.child = .element n) ↔
    ∃ c, (children.filter fun c => c.tag = s.tag) = [c] ∧ ¬ c.IsBareText

section

variable {p : Node}

/-- Pushing children groups them. -/
theorem groups_foldl_push (hp : p.slots = []) (children : List Node) :
    Groups children (children.foldl push p).slots := by
  induction children using List.reverseRecOn with
  | nil =>
    rw [List.foldl_nil, hp]
    exact Groups.nil
  | append_singleton children c ih =>
    rw [List.foldl_append, List.foldl_cons, List.foldl_nil, slots_push]
    exact ih.insert c

theorem map_tag_foldl_push (hp : p.slots = []) (children : List Node) :
    (children.foldl push p).slots.map Slot.tag = (children.map Node.tag).eraseDups := by
  induction children using List.reverseRecOn with
  | nil =>
    rw [List.foldl_nil, hp]
    rfl
  | append_singleton children c ih =>
    rw [List.foldl_append, List.foldl_cons, List.foldl_nil, slots_push, map_tag_insert, ih,
      List.map_append, List.map_singleton, eraseDups_concat]
    simp only [List.mem_eraseDups]

/-- What pushing one child leaves alone, pushing many leaves alone. -/
theorem foldl_push_eq {α : Type} (f : Node → α) (hf : ∀ p c, f (push p c) = f p) (p : Node)
    (children : List Node) : f (children.foldl push p) = f p := by
  induction children generalizing p with
  | nil => rfl
  | cons c children ih => rw [List.foldl_cons, ih, hf]

end

end Node

/-- The slots of a tag stand for the children of the tag: there is one such slot, or no such child.
-/
theorem Groups.flatMap_nodes {children : List Node} {slots : List Slot} (h : Groups children slots)
    (tag : String) :
    (slots.filter fun s => s.tag = tag).flatMap (fun s => s.child.nodes s.tag) =
      children.filter fun c => c.tag = tag := by
  by_cases hmem : tag ∈ slots.map Slot.tag
  · obtain ⟨s, hs, rfl⟩ := List.mem_map.mp hmem
    have hfilter : (slots.filter fun s' => s'.tag = s.tag) = [s] := by
      obtain ⟨front, back, rfl⟩ := List.append_of_mem hs
      have hnodup := h.nodup
      rw [List.map_append, List.map_cons, List.nodup_middle, List.nodup_cons, ← List.map_append]
        at hnodup
      have hothers : ∀ s' ∈ front ++ back, s'.tag ≠ s.tag := fun s' hs' heq =>
        hnodup.1 (heq ▸ List.mem_map_of_mem hs')
      rw [List.forall_mem_append] at hothers
      rw [List.filter_append, List.filter_cons_of_pos (by simp),
        List.filter_eq_nil_iff.mpr (by simpa using hothers.1),
        List.filter_eq_nil_iff.mpr (by simpa using hothers.2), List.nil_append]
    rw [hfilter, List.flatMap_singleton]
    exact h.nodes_child hs
  · have hslots : (slots.filter fun s => s.tag = tag) = [] := by
      refine List.filter_eq_nil_iff.mpr fun s hs heq => hmem ?_
      exact List.mem_map.mpr ⟨s, hs, by simpa using heq⟩
    have hchildren : (children.filter fun c => c.tag = tag) = [] := by
      rw [h.mem_tags] at hmem
      refine List.filter_eq_nil_iff.mpr fun c hc heq => hmem ?_
      exact List.mem_map.mpr ⟨c, hc, by simpa using heq⟩
    rw [hslots, hchildren, List.flatMap_nil]

/-- **Pushing children.** Children that are pushed into a node without children are arranged in its
slots. -/
theorem Node.arranged_foldl_push {p : Node} (hp : p.slots = []) (children : List Node) :
    p.Arranged children (children.foldl push p) := by
  have hgroups := groups_foldl_push hp children
  refine ⟨foldl_push_eq _ tag_push p children, foldl_push_eq _ attributes_push p children,
    foldl_push_eq _ text_push p children, map_tag_foldl_push hp children, hgroups.flatMap_nodes,
    fun s hs => ?_, fun s hs => ?_, fun s hs => ?_⟩
  · rw [hgroups.child s hs]
    exact Child.exists_list_iff (hgroups.ne_nil hs)
  · rw [hgroups.child s hs]
    exact Child.exists_value_iff
  · rw [hgroups.child s hs]
    exact Child.exists_element_iff

/-- A value that becomes a list when its tag comes again, between children of two other tags. -/
theorem Node.arranged_goals :
    let goal : String → Node := fun text => .mk "goal" [] [] (some text)
    let p : Node := .mk "Params" [("n", "1")] [] (some "own")
    let children := [goal "hall", .bare "Leaf", .mk "note" [] [] (some "x"), goal "kitchen"]
    p.slots = [] ∧ p.Arranged children (.mk "Params" [("n", "1")]
      [.mk "goal" (.list [goal "hall", goal "kitchen"]), .mk "Leaf" (.element (.bare "Leaf")),
        .mk "note" (.value "x")] (some "own")) :=
  ⟨rfl, Node.arranged_foldl_push rfl _⟩

end BehaviorIndex.Markup
