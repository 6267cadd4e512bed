import BehaviorIndex.Markup.Node
import BehaviorIndex.Text.Blank

/-!
# Elements

An element as it stands in a document: a tag, attributes, and items in order, each a text or an
element. `Element.toNode` groups the children by tag and gathers the texts into one.

An element can be accepted by the grammar and still have a *fault*: it may be nested too deeply, or
its end tag may carry another name. `Element.fault?` gives the first fault in document order.
-/

namespace BehaviorIndex.Markup

/-- An end tag that does not carry the name of its element, with its line counted from one. -/
structure StrayEnd where
  found : String
  line : Nat
  deriving DecidableEq, Repr

mutual

/-- An element; `stray` is its end tag if that carries another name than the element. -/
inductive Element where
  | mk (tag : String) (attributes : Attributes) (items : List Item) (stray : Option StrayEnd)

inductive Item where
  | text (s : String)
  | element (e : Element)

end

namespace Element

def tag : Element → String
  | mk t _ _ _ => t

def attributes : Element → Attributes
  | mk _ as _ _ => as

def items : Element → List Item
  | mk _ _ is _ => is

def stray : Element → Option StrayEnd
  | mk _ _ _ s => s

end Element

/-! ## Equality -/

mutual

def Element.decEq : (e f : Element) → Decidable (e = f)
  | .mk tag as items stray, .mk tag' as' items' stray' =>
    have := decEqItems items items'
    decidable_of_decidable_of_iff
      (p := tag = tag' ∧ as = as' ∧ items = items' ∧ stray = stray') (by rw [Element.mk.injEq])

def decEqItems : (is js : List Item) → Decidable (is = js)
  | [], [] => .isTrue rfl
  | [], _ :: _ => .isFalse nofun
  | _ :: _, [] => .isFalse nofun
  | .text s :: is, .text t :: js =>
    have := decEqItems is js
    decidable_of_decidable_of_iff (p := s = t ∧ is = js) (by simp)
  | .text _ :: _, .element _ :: _ => .isFalse nofun
  | .element _ :: _, .text _ :: _ => .isFalse nofun
  | .element e :: is, .element f :: js =>
    have := e.decEq f
    have := decEqItems is js
    decidable_of_decidable_of_iff (p := e = f ∧ is = js) (by simp)

end

instance : DecidableEq Element := Element.decEq

/-! ## Texts -/

/-- The texts among the items, joined. -/
def ownText : List Item → String
  | [] => ""
  | .text s :: is => s ++ ownText is
  | .element _ :: is => ownText is

/-- The text of an element: trimmed, and absent when nothing is left. -/
def textOf (items : List Item) : Option String :=
  let t := Text.trimmed (ownText items)
  if t.isEmpty then none else some t

/-! ## Folding into nodes -/

mutual

def Element.toNode : Element → Node
  | .mk tag as items _ => .assemble tag as (nodesOfItems items) (textOf items)

def nodesOfItems : List Item → List Node
  | [] => []
  | .text _ :: is => nodesOfItems is
  | .element e :: is => e.toNode :: nodesOfItems is

end

/-! ## Faults -/

inductive Fault where
  | mismatchedTag (expected : String) (stray : StrayEnd)
  | nestingTooDeep
  deriving DecidableEq, Repr

mutual

/-- The first fault of an element at level `depth`, in document order. -/
def Element.fault? (depth : Nat) : Element → Option Fault
  | .mk tag _ items stray =>
    if maxNesting < depth then some .nestingTooDeep
    else (faultOfItems (depth + 1) items).or (stray.map (.mismatchedTag tag))

def faultOfItems (depth : Nat) : List Item → Option Fault
  | [] => none
  | .text _ :: is => faultOfItems depth is
  | .element e :: is => (e.fault? depth).or (faultOfItems depth is)

end

end BehaviorIndex.Markup
