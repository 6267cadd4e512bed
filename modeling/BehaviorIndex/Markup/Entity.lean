import BehaviorIndex.Markup.Node
import BehaviorIndex.Text.Search

/-!
# Entities

An *entity* is a node with a given tag that carries an identifying attribute; the value of that
attribute is its name. Entities are found anywhere in a tree, and located in the raw text by the
way their start tag is usually written.
-/

namespace BehaviorIndex.Markup

open Text

/-! ## In a tree -/

def Node.isEntity (tag idAttribute : String) (n : Node) : Bool :=
  n.tag == tag && (n.attribute? idAttribute).isSome

mutual

/-- The entities in a tree whose root is at level `depth`, counted from zero: each before those
inside it, slot by slot. Nothing is looked for below the deepest level. -/
def Node.entitiesFrom (tag idAttribute : String) (depth : Nat) : Node → List Node
  | .mk t as ss text =>
    if maxNesting ≤ depth then []
    else
      let here := if (Node.mk t as ss text).isEntity tag idAttribute then [.mk t as ss text] else []
      here ++ entitiesOfSlots tag idAttribute (depth + 1) ss

def entitiesOfSlots (tag idAttribute : String) (depth : Nat) : List Slot → List Node
  | [] => []
  | .mk _ c :: ss =>
    entitiesOfChild tag idAttribute depth c ++ entitiesOfSlots tag idAttribute depth ss

def entitiesOfChild (tag idAttribute : String) (depth : Nat) : Child → List Node
  | .element n => n.entitiesFrom tag idAttribute depth
  | .list ns => entitiesOfNodes tag idAttribute depth ns
  | .value _ => []

def entitiesOfNodes (tag idAttribute : String) (depth : Nat) : List Node → List Node
  | [] => []
  | n :: ns =>
    n.entitiesFrom tag idAttribute depth ++ entitiesOfNodes tag idAttribute depth ns

end

def Node.entities (tag idAttribute : String) (root : Node) : List Node :=
  root.entitiesFrom tag idAttribute 0

/-- The first entity with a given name. -/
def Node.entity? (tag idAttribute name : String) (root : Node) : Option Node :=
  (root.entities tag idAttribute).find? fun n => n.attribute? idAttribute == some name

/-! ## In the raw text -/

/-- A range of bytes in a text. -/
structure TextRange where
  start : Nat
  stop : Nat
  deriving DecidableEq, Repr

namespace TextRange

def length (r : TextRange) : Nat := r.stop - r.start

def isEmpty (r : TextRange) : Bool := r.start == r.stop

end TextRange

/-- How the start tag of an entity usually begins. -/
def openPattern (tag idAttribute name : String) : String :=
  "<" ++ tag ++ " " ++ idAttribute ++ "=\"" ++ name ++ "\""

def closePattern (tag : String) : String := "</" ++ tag ++ ">"

/-- From the first `opening` to the end of the first `closing` at or after it. Without a `closing`
the range is empty. -/
def rangeOf? (opening closing text : String) : Option TextRange :=
  (breakOn opening.toList text.toList).map fun (before, rest) =>
    let start := byteSize before
    match breakOn closing.toList rest with
    | some (inner, _) => ⟨start, start + byteSize inner + byteSize closing.toList⟩
    | none => ⟨start, start⟩

def entityRange? (tag idAttribute name text : String) : Option TextRange :=
  rangeOf? (openPattern tag idAttribute name) (closePattern tag) text

/-- The first offset at or after `start` at which a tag of this name begins. -/
def tagOffset? (tag text : String) (start : Nat) : Option Nat :=
  (offsetOf? ('<' :: tag.toList) (dropBytes start text.toList)).map (start + ·)

end BehaviorIndex.Markup
