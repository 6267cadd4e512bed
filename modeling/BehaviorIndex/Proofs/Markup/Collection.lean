import BehaviorIndex.Markup.Outline
import BehaviorIndex.Proofs.Markup.Entities
import BehaviorIndex.Proofs.Markup.Representation
import Mathlib.Data.List.Flatten
import Mathlib.Data.List.Perm.Basic
import Mathlib.Tactic.Choose

/-!
# No entity is lost, and no outline is cut off

A parsed tree is searched for entities and shown as an outline, and both stop at the deepest level
of nesting. The reader has refused every document in which an element lies below that level, so
neither has anything to leave out.

An *occurrence* is an element of a document together with its *trail*, the steps that lead to it
from the root. `Element.occurrences` lists them in document order.

**Theorem (`collects_of_parse`).** For every parsed document,

* the entities found in the tree are the occurrences that are entities, each once, outer ones before
  those inside them, and among siblings of one tag in document order (`Gathers`);
* there is an entity of a given name exactly if some occurrence has that name;
* the outline of every node of the tree is what is written when no level is too deep
  (`Node.fullLines`).

The entities of a node come slot by slot, and its slots group the inner elements by tag. So the step
from the inner elements to the element itself is one about grouping: `grouped` lists the inner
elements tag by tag, which is a permutation of them that keeps the order within each tag.
-/

namespace BehaviorIndex.Markup

/-! ## Occurrences -/

/-- A step from an element to one inside it: how many elements stand before that one, and its
tag. -/
structure Step where
  place : Nat
  tag : String
  deriving DecidableEq, Repr

/-- An element of a document, and the steps that lead to it from the root. -/
structure Occurrence where
  trail : List Step
  element : Element

def Occurrence.under (s : Step) (o : Occurrence) : Occurrence := ⟨s :: o.trail, o.element⟩

mutual

/-- The element itself and all elements inside it, in document order. -/
def Element.occurrences : Element → List Occurrence
  | .mk tag as items stray => ⟨[], .mk tag as items stray⟩ :: occurrencesOfItems 0 items

/-- The elements in the items, when `place` elements stand before them. -/
def occurrencesOfItems (place : Nat) : List Item → List Occurrence
  | [] => []
  | .text _ :: is => occurrencesOfItems place is
  | .element e :: is =>
    e.occurrences.map (Occurrence.under ⟨place, e.tag⟩) ++ occurrencesOfItems (place + 1) is

end

/-- One occurrence may be listed before another: an element before those inside it, and of two
siblings of one tag the first with all that is inside it. -/
inductive Precedes : List Step → List Step → Prop
  | outer {s : Step} {trail : List Step} : Precedes [] (s :: trail)
  | inside {s : Step} {trail later : List Step} (h : Precedes trail later) :
      Precedes (s :: trail) (s :: later)
  | beside {s t : Step} {trail later : List Step} (h : s.tag = t.tag → s.place < t.place) :
      Precedes (s :: trail) (t :: later)

theorem Precedes.irrefl {trail later : List Step} (h : Precedes trail later) : trail ≠ later := by
  induction h with
  | outer => simp
  | inside _ ih => simpa using ih
  | @beside s t trail later h =>
    intro heq
    obtain ⟨rfl, -⟩ := List.cons.inj heq
    exact absurd (h rfl) (Nat.lt_irrefl _)

def Element.isEntity (tag idAttribute : String) (e : Element) : Bool :=
  e.tag == tag && (e.attributes.lookup idAttribute).isSome

/-- The nodes are those of the entities of the element: each is there once, and they come in an
order in which no occurrence is listed before one that precedes it. -/
structure Gathers (tag idAttribute : String) (e : Element) (nodes : List Node)
    (found : List Occurrence) : Prop where
  nodes : found.map (fun o => o.element.toNode) = nodes
  perm : found.Perm (e.occurrences.filter fun o => o.element.isEntity tag idAttribute)
  nodup : (found.map Occurrence.trail).Nodup
  ordered : found.Pairwise fun o later => Precedes o.trail later.trail

/-! ## Inner elements, tag by tag -/

/-- The elements among the items, each with the step that leads to it. -/
def steps (place : Nat) : List Item → List (Step × Element)
  | [] => []
  | .text _ :: is => steps place is
  | .element e :: is => (⟨place, e.tag⟩, e) :: steps (place + 1) is

theorem tag_of_mem_steps {place : Nat} {items : List Item} {k : Step × Element}
    (h : k ∈ steps place items) : k.1.tag = k.2.tag := by
  fun_induction steps place items with
  | case1 => cases h
  | case2 place s is ih => exact ih h
  | case3 place e is ih =>
    rcases List.mem_cons.mp h with rfl | h
    · rfl
    · exact ih h

theorem mem_items_of_mem_steps {place : Nat} {items : List Item} {k : Step × Element}
    (h : k ∈ steps place items) : .element k.2 ∈ items := by
  fun_induction steps place items with
  | case1 => cases h
  | case2 place s is ih => exact List.mem_cons_of_mem _ (ih h)
  | case3 place e is ih =>
    rcases List.mem_cons.mp h with rfl | h
    · exact List.mem_cons_self
    · exact List.mem_cons_of_mem _ (ih h)

theorem le_place_of_mem_steps {place : Nat} {items : List Item} {k : Step × Element}
    (h : k ∈ steps place items) : place ≤ k.1.place := by
  fun_induction steps place items with
  | case1 => cases h
  | case2 place s is ih => exact ih h
  | case3 place e is ih =>
    rcases List.mem_cons.mp h with rfl | h
    · exact Nat.le_refl place
    · exact Nat.le_of_succ_le (ih h)

/-- The steps are in the order of their places. -/
theorem pairwise_steps (place : Nat) (items : List Item) :
    (steps place items).Pairwise fun k later => k.1.place < later.1.place := by
  fun_induction steps place items with
  | case1 => exact List.Pairwise.nil
  | case2 place s is ih => exact ih
  | case3 place e is ih => exact List.pairwise_cons.mpr ⟨fun k hk => le_place_of_mem_steps hk, ih⟩

theorem nodesOfItems_eq (place : Nat) (items : List Item) :
    nodesOfItems items = (steps place items).map fun k => k.2.toNode := by
  fun_induction steps place items with
  | case1 => rfl
  | case2 place s is ih => rw [nodesOfItems, ih]
  | case3 place e is ih => rw [nodesOfItems, ih, List.map_cons]

theorem occurrencesOfItems_eq (place : Nat) (items : List Item) :
    occurrencesOfItems place items =
      (steps place items).flatMap fun k => k.2.occurrences.map (Occurrence.under k.1) := by
  fun_induction steps place items with
  | case1 => rfl
  | case2 place s is ih => rw [occurrencesOfItems, ih]
  | case3 place e is ih => rw [occurrencesOfItems, ih, List.flatMap_cons]

/-- The inner elements, tag by tag. -/
def grouped (tags : List String) (kids : List (Step × Element)) : List (Step × Element) :=
  tags.flatMap fun t => kids.filter fun k => k.1.tag = t

/-- Grouping by distinct tags loses nothing and repeats nothing. -/
theorem grouped_perm {tags : List String} (hnodup : tags.Nodup) {kids : List (Step × Element)}
    (hmem : ∀ k ∈ kids, k.1.tag ∈ tags) : (grouped tags kids).Perm kids := by
  induction tags generalizing kids with
  | nil =>
    have hnil : kids = [] := List.eq_nil_iff_forall_not_mem.mpr fun k hk => by simpa using hmem k hk
    rw [hnil]
    exact .refl _
  | cons t tags ih =>
    obtain ⟨hnew, hnodup⟩ := List.nodup_cons.mp hnodup
    -- The kids of the other tags are grouped in the same way with or without those of tag `t`.
    have hothers : grouped tags kids = grouped tags (kids.filter fun k => ¬ k.1.tag = t) := by
      refine List.flatMap_congr fun u hu => ?_
      rw [List.filter_filter]
      refine List.filter_congr fun k _ => ?_
      by_cases htag : k.1.tag = u
      · have hne : u ≠ t := fun heq => hnew (heq ▸ hu)
        simp [htag, hne]
      · simp [htag]
    have hrest : (grouped tags kids).Perm (kids.filter fun k => ¬ k.1.tag = t) := by
      rw [hothers]
      refine ih hnodup fun k hk => ?_
      obtain ⟨hk, hne⟩ := List.mem_filter.mp hk
      exact (List.mem_cons.mp (hmem k hk)).resolve_left (by simpa using hne)
    have hsplit := List.filter_append_perm (fun k => decide (k.1.tag = t)) kids
    rw [grouped, List.flatMap_cons]
    refine List.Perm.trans (List.Perm.append_left _ hrest) ?_
    simpa using hsplit

/-- Grouping by distinct tags keeps the order within each tag. -/
theorem pairwise_grouped {tags : List String} (hnodup : tags.Nodup) (items : List Item) :
    (grouped tags (steps 0 items)).Pairwise fun k later =>
      k.1.tag = later.1.tag → k.1.place < later.1.place := by
  rw [grouped, List.pairwise_flatMap]
  constructor
  · intro t _
    refine List.Pairwise.filter _ ?_
    refine (pairwise_steps 0 items).imp ?_
    intro k later hplace _
    exact hplace
  · refine hnodup.imp fun hne k hk later hlater htag => ?_
    have hk := (List.mem_filter.mp hk).2
    have hlater := (List.mem_filter.mp hlater).2
    rw [decide_eq_true_eq] at hk hlater
    exact absurd (hk.symm.trans (htag.trans hlater)) hne

/-! ## Entities -/

section

variable (tag idAttribute : String)

theorem Element.attributes_toNode (e : Element) : e.toNode.attributes = e.attributes := by
  obtain ⟨t, as, items, stray⟩ := e
  rw [Element.toNode]
  rfl

theorem Element.isEntity_toNode (e : Element) :
    e.toNode.isEntity tag idAttribute = e.isEntity tag idAttribute := by
  rw [Node.isEntity, Node.attribute?, Element.tag_toNode, Element.attributes_toNode,
    Element.isEntity]

theorem entitiesOfNodes_eq (depth : Nat) (nodes : List Node) :
    entitiesOfNodes tag idAttribute depth nodes =
      nodes.flatMap fun n => n.entitiesFrom tag idAttribute depth := by
  induction nodes with
  | nil => rfl
  | cons n nodes ih => rw [entitiesOfNodes, ih, List.flatMap_cons]

theorem entitiesOfSlots_eq (depth : Nat) (slots : List Slot) :
    entitiesOfSlots tag idAttribute depth slots =
      slots.flatMap fun s => entitiesOfNodes tag idAttribute depth (s.child.nodes s.tag) := by
  induction slots with
  | nil => rfl
  | cons s slots ih =>
    obtain ⟨t, c⟩ := s
    rw [entitiesOfSlots, ih, List.flatMap_cons, entitiesOfChild_eq tag idAttribute depth t c]
    rfl

/-- The entities in the slots of an element are those of its inner elements, tag by tag. -/
theorem entitiesOfSlots_toNode (depth : Nat) (e : Element) :
    entitiesOfSlots tag idAttribute depth e.toNode.slots =
      (grouped (e.toNode.slots.map Slot.tag) (steps 0 e.items)).flatMap fun k =>
        k.2.toNode.entitiesFrom tag idAttribute depth := by
  rw [entitiesOfSlots_eq, grouped, List.flatMap_assoc, List.flatMap_map]
  refine List.flatMap_congr fun s hs => ?_
  rw [e.groups_toNode.nodes_child hs, entitiesOfNodes_eq, nodesOfItems_eq 0, List.filter_map,
    List.flatMap_map]
  refine congrArg (List.flatMap _) (List.filter_congr fun k hk => ?_)
  simp [Element.tag_toNode, tag_of_mem_steps hk]

theorem mem_tags_of_mem_steps {e : Element} {k : Step × Element} (h : k ∈ steps 0 e.items) :
    k.1.tag ∈ e.toNode.slots.map Slot.tag := by
  rw [e.groups_toNode.mem_tags, nodesOfItems_eq 0, tag_of_mem_steps h, ← Element.tag_toNode]
  exact List.mem_map_of_mem (List.mem_map_of_mem h)

/-- The entity that an element is itself, if it is one. -/
def Element.ownEntity (e : Element) : List Occurrence :=
  if e.isEntity tag idAttribute then [⟨[], e⟩] else []

theorem entitiesFrom_toNode {depth : Nat} (hdepth : depth < maxNesting) (e : Element) :
    e.toNode.entitiesFrom tag idAttribute depth =
      (e.ownEntity tag idAttribute).map (fun o => o.element.toNode) ++
        entitiesOfSlots tag idAttribute (depth + 1) e.toNode.slots := by
  have hown : (e.ownEntity tag idAttribute).map (fun o => o.element.toNode) =
      if e.toNode.isEntity tag idAttribute then [e.toNode] else [] := by
    rw [Element.ownEntity, Element.isEntity_toNode]
    split <;> rfl
  rw [hown]
  cases e.toNode with
  | mk t as slots text =>
    rw [Node.entitiesFrom, if_neg (Nat.not_le.mpr hdepth)]
    rfl

theorem filter_occurrences (e : Element) :
    (e.occurrences.filter fun o => o.element.isEntity tag idAttribute) =
      e.ownEntity tag idAttribute ++ (steps 0 e.items).flatMap fun k =>
        (k.2.occurrences.filter fun o => o.element.isEntity tag idAttribute).map
          (Occurrence.under k.1) := by
  have hinner : ((occurrencesOfItems 0 e.items).filter fun o =>
        o.element.isEntity tag idAttribute) =
      (steps 0 e.items).flatMap fun k =>
        (k.2.occurrences.filter fun o => o.element.isEntity tag idAttribute).map
          (Occurrence.under k.1) := by
    rw [occurrencesOfItems_eq, List.filter_flatMap]
    refine List.flatMap_congr fun k _ => ?_
    rw [List.filter_map]
    rfl
  rw [← hinner]
  obtain ⟨t, as, items, stray⟩ := e
  rw [Element.occurrences, List.filter_cons, Element.ownEntity, Element.items]
  split <;> rfl

/-- What has been found in the inner elements of an element, tag by tag, after the element
itself. -/
def Element.gathered (e : Element) (inner : Step × Element → List Occurrence) : List Occurrence :=
  e.ownEntity tag idAttribute ++
    (grouped (e.toNode.slots.map Slot.tag) (steps 0 e.items)).flatMap fun k =>
      (inner k).map (Occurrence.under k.1)

variable {tag idAttribute}

theorem Gathers.of_ordered {e : Element} {nodes : List Node} {found : List Occurrence}
    (hnodes : found.map (fun o => o.element.toNode) = nodes)
    (hperm : found.Perm (e.occurrences.filter fun o => o.element.isEntity tag idAttribute))
    (hordered : found.Pairwise fun o later => Precedes o.trail later.trail) :
    Gathers tag idAttribute e nodes found where
  nodes := hnodes
  perm := hperm
  nodup := List.pairwise_map.mpr (hordered.imp Precedes.irrefl)
  ordered := hordered

section

variable {e : Element} {depth : Nat} {inner : Step × Element → List Occurrence}

theorem mem_steps_of_mem_grouped {tags : List String} {kids : List (Step × Element)}
    {k : Step × Element} (h : k ∈ grouped tags kids) : k ∈ kids := by
  obtain ⟨t, -, hk⟩ := List.mem_flatMap.mp h
  exact List.mem_of_mem_filter hk

theorem gathered_ordered
    (h : ∀ k ∈ steps 0 e.items, (inner k).Pairwise fun o later => Precedes o.trail later.trail) :
    (e.gathered tag idAttribute inner).Pairwise fun o later => Precedes o.trail later.trail := by
  rw [Element.gathered, List.pairwise_append]
  refine ⟨?_, ?_, ?_⟩
  · rw [Element.ownEntity]
    split
    · exact List.pairwise_singleton _ _
    · exact List.Pairwise.nil
  · rw [List.pairwise_flatMap]
    constructor
    · intro k hk
      refine List.pairwise_map.mpr ((h k (mem_steps_of_mem_grouped hk)).imp ?_)
      exact fun hprecedes => .inside hprecedes
    · refine (pairwise_grouped e.groups_toNode.nodup e.items).imp ?_
      intro k later hplace o ho o' ho'
      obtain ⟨o, -, rfl⟩ := List.mem_map.mp ho
      obtain ⟨o', -, rfl⟩ := List.mem_map.mp ho'
      exact .beside hplace
  · intro o ho o' ho'
    have htrail : o.trail = [] := by
      rw [Element.ownEntity] at ho
      split at ho
      · rw [List.mem_singleton.mp ho]
      · cases ho
    obtain ⟨k, -, ho'⟩ := List.mem_flatMap.mp ho'
    obtain ⟨o', -, rfl⟩ := List.mem_map.mp ho'
    rw [htrail]
    exact .outer

/-- **One element.** What is found in an element is found from what is found in its inner
elements. -/
theorem Gathers.step (hdepth : depth < maxNesting)
    (h : ∀ k ∈ steps 0 e.items, Gathers tag idAttribute k.2
      (k.2.toNode.entitiesFrom tag idAttribute (depth + 1)) (inner k)) :
    Gathers tag idAttribute e (e.toNode.entitiesFrom tag idAttribute depth)
      (e.gathered tag idAttribute inner) := by
  refine .of_ordered ?_ ?_ (gathered_ordered fun k hk => (h k hk).ordered)
  · rw [entitiesFrom_toNode tag idAttribute hdepth, entitiesOfSlots_toNode, Element.gathered,
      List.map_append, List.map_flatMap]
    refine congrArg _ (List.flatMap_congr fun k hk => ?_)
    rw [← (h k (mem_steps_of_mem_grouped hk)).nodes, List.map_map]
    rfl
  · have hgrouped := grouped_perm e.groups_toNode.nodup fun k hk => mem_tags_of_mem_steps hk
    rw [filter_occurrences, Element.gathered]
    refine List.Perm.append_left _ ((hgrouped.flatMap_right _).trans ?_)
    exact List.Perm.flatMap_left _ fun k hk => (h k hk).perm.map _

end

theorem sizeOf_lt_of_mem_items {e inner : Element} (h : .element inner ∈ e.items) :
    sizeOf inner < sizeOf e := by
  obtain ⟨t, as, items, stray⟩ := e
  have hlt := List.sizeOf_lt_of_mem h
  simp only [Item.element.sizeOf_spec, Element.items] at hlt
  simp only [Element.mk.sizeOf_spec]
  omega

/-- **The whole element.** Nothing is lost in an element without a fault. -/
theorem Element.Sound.exists_gathers {e : Element} {depth : Nat} (h : e.Sound (depth + 1))
    (tag idAttribute : String) :
    ∃ found, Gathers tag idAttribute e (e.toNode.entitiesFrom tag idAttribute depth) found := by
  have hinner : ∀ k ∈ steps 0 e.items, ∃ found, Gathers tag idAttribute k.2
      (k.2.toNode.entitiesFrom tag idAttribute (depth + 1)) found := by
    intro k hk
    have hitem := mem_items_of_mem_steps hk
    have hsize := sizeOf_lt_of_mem_items hitem
    exact exists_gathers (h.item hitem) tag idAttribute
  choose! inner hinner using hinner
  exact ⟨_, Gathers.step h.level_le hinner⟩
termination_by sizeOf e

/-- An entity of a name is found exactly if an element has that name. -/
theorem Gathers.isSome_find? {e : Element} {nodes : List Node} {found : List Occurrence}
    (h : Gathers tag idAttribute e nodes found) (name : String) :
    (nodes.find? fun n => n.attribute? idAttribute == some name).isSome ↔
      ∃ o ∈ e.occurrences,
        o.element.tag = tag ∧ o.element.attributes.lookup idAttribute = some name := by
  rw [List.find?_isSome, ← h.nodes]
  constructor
  · rintro ⟨n, hn, hname⟩
    obtain ⟨o, ho, rfl⟩ := List.mem_map.mp hn
    obtain ⟨ho, hentity⟩ := List.mem_filter.mp (h.perm.mem_iff.mp ho)
    rw [Element.isEntity, Bool.and_eq_true, beq_iff_eq] at hentity
    rw [beq_iff_eq, Node.attribute?, Element.attributes_toNode] at hname
    exact ⟨o, ho, hentity.1, hname⟩
  · rintro ⟨o, ho, htag, hname⟩
    have hentity : o.element.isEntity tag idAttribute = true := by
      rw [Element.isEntity, htag, hname, beq_self_eq_true]
      rfl
    have hfound := h.perm.mem_iff.mpr (List.mem_filter.mpr ⟨ho, hentity⟩)
    refine ⟨o.element.toNode, List.mem_map_of_mem hfound, ?_⟩
    rw [beq_iff_eq, Node.attribute?, Element.attributes_toNode]
    exact hname

end

/-! ## Outlines -/

mutual

/-- The outline of a node when no level is too deep. -/
def Node.fullLines (tag : String) (depth : Nat) : Node → List String
  | .mk _ as ss _ =>
    let head := "<" ++ tag ++ attributesText as
    if ss.isEmpty then [outlineLine depth (head ++ " />")]
    else
      outlineLine depth (head ++ ">") :: fullLinesOfSlots (depth + 1) ss ++
        [outlineLine depth ("</" ++ tag ++ ">")]

def fullLinesOfSlots (depth : Nat) : List Slot → List String
  | [] => []
  | .mk tag c :: ss => fullLinesOfChild tag depth c ++ fullLinesOfSlots depth ss

def fullLinesOfChild (tag : String) (depth : Nat) : Child → List String
  | .element n => n.fullLines tag depth
  | .list ns => fullLinesOfNodes tag depth ns
  | .value _ => [outlineLine depth ("<" ++ tag ++ " />")]

def fullLinesOfNodes (tag : String) (depth : Nat) : List Node → List String
  | [] => []
  | n :: ns => n.fullLines tag depth ++ fullLinesOfNodes tag depth ns

end

section

variable {tag : String} {depth : Nat}

theorem outlineOfNodes_eq {nodes : List Node}
    (h : ∀ n ∈ nodes, n.outlineLines tag depth = n.fullLines tag depth) :
    outlineOfNodes tag depth nodes = fullLinesOfNodes tag depth nodes := by
  induction nodes with
  | nil => rfl
  | cons n nodes ih =>
    rw [outlineOfNodes, fullLinesOfNodes, h n List.mem_cons_self,
      ih fun m hm => h m (List.mem_cons_of_mem _ hm)]

theorem outlineOfChild_eq {c : Child}
    (h : ∀ n ∈ c.nodes tag, n.outlineLines tag depth = n.fullLines tag depth) :
    outlineOfChild tag depth c = fullLinesOfChild tag depth c := by
  cases c with
  | element n => exact h n List.mem_cons_self
  | list ns => exact outlineOfNodes_eq h
  | value t => rfl

theorem outlineOfSlots_eq {slots : List Slot}
    (h : ∀ s ∈ slots, ∀ n ∈ s.child.nodes s.tag,
      n.outlineLines s.tag depth = n.fullLines s.tag depth) :
    outlineOfSlots depth slots = fullLinesOfSlots depth slots := by
  induction slots with
  | nil => rfl
  | cons s slots ih =>
    obtain ⟨t, c⟩ := s
    have hchild : outlineOfChild t depth c = fullLinesOfChild t depth c :=
      outlineOfChild_eq (h (.mk t c) List.mem_cons_self)
    rw [outlineOfSlots, fullLinesOfSlots, hchild, ih fun s hs => h s (List.mem_cons_of_mem _ hs)]

/-- A node whose children are written in full is written in full, if it has none or they are not
too deep. -/
theorem Node.outlineLines_eq {n : Node} (hdepth : n.slots ≠ [] → depth + 1 < maxNesting)
    (h : outlineOfSlots (depth + 1) n.slots = fullLinesOfSlots (depth + 1) n.slots) :
    n.outlineLines tag depth = n.fullLines tag depth := by
  obtain ⟨t, as, slots, text⟩ := n
  rw [Node.outlineLines, Node.fullLines]
  simp only [Node.slots] at hdepth h
  by_cases hslots : slots = []
  · simp [hslots]
  · have hnonempty : ¬ slots.isEmpty = true := by simpa using hslots
    rw [if_neg hnonempty, if_neg hnonempty, if_neg (Nat.not_le.mpr (hdepth hslots)), h]

end

/-- **Outlines.** An element without a fault has an outline in full, from any level on that is not
beyond its own. -/
theorem Element.Sound.outlineLines_eq {e : Element} {level depth : Nat} (h : e.Sound level)
    (hdepth : depth < level) (tag : String) :
    e.toNode.outlineLines tag depth = e.toNode.fullLines tag depth := by
  have hchild : ∀ s ∈ e.toNode.slots, ∀ n ∈ s.child.nodes s.tag,
      ∃ inner : Element, .element inner ∈ e.items ∧ inner.toNode = n := by
    intro s hs n hn
    rw [e.groups_toNode.nodes_child hs] at hn
    obtain ⟨inner, hinner, hnode, -⟩ := Element.exists_of_mem_filter hn
    exact ⟨inner, hinner, hnode⟩
  refine Node.outlineLines_eq ?_ (outlineOfSlots_eq ?_)
  · -- A slot holds the node of an inner element, whose level is within the limit.
    intro hslots
    obtain ⟨s, hs⟩ := List.exists_mem_of_ne_nil _ hslots
    have hne := e.groups_toNode.ne_nil hs
    rw [← e.groups_toNode.nodes_child hs] at hne
    obtain ⟨n, hn⟩ := List.exists_mem_of_ne_nil _ hne
    obtain ⟨inner, hinner, -⟩ := hchild s hs n hn
    have hlevel := (h.item hinner).level_le
    omega
  · intro s hs n hn
    obtain ⟨inner, hinner, rfl⟩ := hchild s hs n hn
    have hsize := sizeOf_lt_of_mem_items hinner
    exact outlineLines_eq (h.item hinner) (by omega) s.tag
termination_by sizeOf e

theorem Node.Reaches.level_pos {root n : Node} {level : Nat} (h : root.Reaches level n) :
    0 < level := by
  cases h <;> omega

/-! ## Parsed documents -/

/-- **Nothing is lost.** In a parsed document every entity is found once, an entity is found by each
name that an element has, and every outline is written in full. -/
theorem collects_of_parse {text : String} {root : Node} (h : parse text = .ok root)
    (tag idAttribute : String) :
    ∃ e : Element, readRoot? text.toList = some e ∧ e.toNode = root ∧
      (∃ found, Gathers tag idAttribute e (root.entities tag idAttribute) found) ∧
      (∀ name, (root.entity? tag idAttribute name).isSome ↔
        ∃ o ∈ e.occurrences,
          o.element.tag = tag ∧ o.element.attributes.lookup idAttribute = some name) ∧
      ∀ level n, root.Reaches level n → n.outlineLines n.tag 0 = n.fullLines n.tag 0 := by
  obtain ⟨e, hread, hsound, rfl⟩ := exists_root_of_parse h
  obtain ⟨found, hfound⟩ := hsound.exists_gathers tag idAttribute
  refine ⟨e, hread, rfl, ⟨found, hfound⟩, hfound.isSome_find?, fun level n hn => ?_⟩
  obtain ⟨inner, hinner, rfl⟩ := hn.of_element hsound
  exact hinner.outlineLines_eq hn.level_pos _

/-- A document with an entity inside another, a sibling of its tag that comes later, one of its tag
that is no entity, and a value. -/
def copse : String := "<r><S ID='a'><S ID='b'/></S><v>x</v><T ID='d'/><S>y</S><S ID='c'/></r>"

theorem collects_of_parse_copse :
    ∃ root e found, parse copse = .ok root ∧ Gathers "S" "ID" e (root.entities "S" "ID") found ∧
      (root.entities "S" "ID").filterMap (·.attribute? "ID") = ["a", "b", "c"] ∧
      ((root.entity? "S" "ID" "d").isSome ↔
        ∃ o ∈ e.occurrences,
          o.element.tag = "S" ∧ o.element.attributes.lookup "ID" = some "d") ∧
      root.outlineLines root.tag 0 = root.fullLines root.tag 0 := by
  have hrun : ((parse copse).toOption.any fun root =>
      (root.entities "S" "ID").filterMap (·.attribute? "ID") == ["a", "b", "c"]) = true := by
    decide +kernel
  cases hparse : parse copse with
  | error e =>
    rw [hparse] at hrun
    cases hrun
  | ok root =>
    rw [hparse] at hrun
    obtain ⟨e, -, -, ⟨found, hfound⟩, hname, houtline⟩ := collects_of_parse hparse "S" "ID"
    exact ⟨root, e, found, rfl, hfound, beq_iff_eq.mp hrun, hname "d", houtline 1 root .root⟩

end BehaviorIndex.Markup
