import BehaviorIndex.Markup.Tag

/-!
# Nodes

A node is an element with its children grouped by tag. Each tag that occurs among the children has
one *slot*, in the order of first occurrence:

* `element`, for a tag that occurs once;
* `list`, for a tag that occurs more than once, its nodes in document order;
* `value`, for a tag that occurs once with a text and nothing else, which keeps only the text.

`Node.push` adds a child. The slot of its tag changes form as further children arrive, and a value
turns into a node again when its tag occurs a second time.
-/

namespace BehaviorIndex.Markup

/-- The deepest level of nesting, the root being level one. -/
def maxNesting : Nat := 256

mutual

inductive Node where
  | mk (tag : String) (attributes : Attributes) (slots : List Slot) (text : Option String)

inductive Slot where
  | mk (tag : String) (child : Child)

inductive Child where
  | element (node : Node)
  | list (nodes : List Node)
  | value (text : String)

end

namespace Node

def tag : Node → String
  | mk t _ _ _ => t

def attributes : Node → Attributes
  | mk _ as _ _ => as

def slots : Node → List Slot
  | mk _ _ ss _ => ss

def text : Node → Option String
  | mk _ _ _ t => t

/-- A node with a tag and nothing else. -/
def bare (tag : String) : Node := mk tag [] [] none

def withText (t : Option String) : Node → Node
  | mk tag as ss _ => mk tag as ss t

/-- The first value of an attribute. -/
def attribute? (n : Node) (name : String) : Option String := n.attributes.lookup name

def hasChildren (n : Node) : Bool := !n.slots.isEmpty

/-- The text of a node that carries a text and nothing else. -/
def bareText? : Node → Option String
  | mk _ [] [] (some t) => some t
  | _ => none

end Node

namespace Slot

def tag : Slot → String
  | mk t _ => t

def child : Slot → Child
  | mk _ c => c

end Slot

/-- The form in which an only child is kept. -/
def Child.ofNode (n : Node) : Child :=
  match n.bareText? with
  | some t => .value t
  | none => .element n

/-- The nodes that a child of tag `tag` stands for. -/
def Child.nodes (tag : String) : Child → List Node
  | .element n => [n]
  | .list ns => ns
  | .value t => [.mk tag [] [] (some t)]

/-- A slot with one further node of its tag. -/
def Slot.push (s : Slot) (n : Node) : Slot := .mk s.tag (.list (s.child.nodes s.tag ++ [n]))

/-- The slots with one further child. -/
def Slot.insert (n : Node) : List Slot → List Slot
  | [] => [.mk n.tag (Child.ofNode n)]
  | s :: ss => if s.tag = n.tag then s.push n :: ss else s :: Slot.insert n ss

namespace Node

/-- A node with one further child. -/
def push : Node → Node → Node
  | mk tag as ss t, child => mk tag as (Slot.insert child ss) t

/-- The slot of a tag. -/
def slot? (n : Node) (tag : String) : Option Slot := n.slots.find? (·.tag == tag)

/-- A node from its children, in document order. -/
def assemble (tag : String) (attributes : Attributes) (children : List Node)
    (text : Option String) : Node :=
  mk tag attributes (children.foldl (fun ss c => Slot.insert c ss) []) text

end Node

/-! ## Listing a tree -/

/-- Where a node stands in its parent. -/
inductive Place where
  | root
  | element
  | list
  | value
  deriving DecidableEq, Repr

/-- One line of the listing of a tree. -/
structure Entry where
  depth : Nat
  place : Place
  tag : String
  attributes : Attributes
  text : Option String

mutual

/-- The nodes of a tree, each before its children, slot by slot. -/
def Node.entries (depth : Nat) (place : Place) : Node → List Entry
  | .mk tag as ss text => ⟨depth, place, tag, as, text⟩ :: entriesOfSlots (depth + 1) ss

def entriesOfSlots (depth : Nat) : List Slot → List Entry
  | [] => []
  | .mk tag c :: ss => entriesOfChild depth tag c ++ entriesOfSlots depth ss

def entriesOfChild (depth : Nat) (tag : String) : Child → List Entry
  | .element n => n.entries depth .element
  | .list ns => entriesOfNodes depth ns
  | .value t => [⟨depth, .value, tag, [], some t⟩]

def entriesOfNodes (depth : Nat) : List Node → List Entry
  | [] => []
  | n :: ns => n.entries depth .list ++ entriesOfNodes depth ns

end

end BehaviorIndex.Markup
