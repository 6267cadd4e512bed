import BehaviorIndex.Markup.Node

/-!
# Outlines

The outline of a node shows its structure, one line for each tag, two spaces of indent for each
level. Texts are not shown. Below the deepest level of nesting, `...` stands for all children.
-/

namespace BehaviorIndex.Markup

/-- A line of an outline, at a level counted from zero. -/
def outlineLine (depth : Nat) (s : String) : String :=
  "".pushn ' ' (2 * depth) ++ "- " ++ s

def attributesText (as : Attributes) : String :=
  String.join (as.map fun (name, value) => " " ++ name ++ "=\"" ++ value ++ "\"")

mutual

/-- The outline of a node, shown under the name `tag`, from level `depth` on. -/
def Node.outlineLines (tag : String) (depth : Nat) : Node → List String
  | .mk _ as ss _ =>
    let head := "<" ++ tag ++ attributesText as
    if ss.isEmpty then [outlineLine depth (head ++ " />")]
    else
      outlineLine depth (head ++ ">") ::
        (if maxNesting ≤ depth + 1 then [outlineLine (depth + 1) "..."]
          else outlineOfSlots (depth + 1) ss) ++
        [outlineLine depth ("</" ++ tag ++ ">")]

def outlineOfSlots (depth : Nat) : List Slot → List String
  | [] => []
  | .mk tag c :: ss => outlineOfChild tag depth c ++ outlineOfSlots depth ss

def outlineOfChild (tag : String) (depth : Nat) : Child → List String
  | .element n => n.outlineLines tag depth
  | .list ns => outlineOfNodes tag depth ns
  | .value _ => [outlineLine depth ("<" ++ tag ++ " />")]

def outlineOfNodes (tag : String) (depth : Nat) : List Node → List String
  | [] => []
  | n :: ns => n.outlineLines tag depth ++ outlineOfNodes tag depth ns

end

/-- The outline of a node, as one text. -/
def Node.outline (n : Node) : String := "\n".intercalate (n.outlineLines n.tag 0)

end BehaviorIndex.Markup
