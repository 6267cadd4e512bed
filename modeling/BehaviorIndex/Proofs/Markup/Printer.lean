import BehaviorIndex.Markup.Document
import BehaviorIndex.Proofs.Markup.Escape
import BehaviorIndex.Proofs.Markup.Tag

/-!
# Writing an element

The way to write an element that reads back: `<tag name="value"…>`, the items one after the other,
and `</tag>`, with the values and texts escaped. An element can be written when its names are names
and its tag can be remembered while it is open (`Element.Writable`).
-/

namespace BehaviorIndex.Markup

def writtenAttribute (a : String × String) : List Char :=
  ' ' :: (a.1.toList ++ '=' :: '"' :: (escape a.2.toList ++ ['"']))

mutual

def Element.written : Element → List Char
  | .mk tag as items _ =>
    '<' :: (tag.toList ++ (as.flatMap writtenAttribute ++
      '>' :: (writtenItems items ++ '<' :: '/' :: (tag.toList ++ ['>']))))

def writtenItems : List Item → List Char
  | [] => []
  | .text s :: is => escape s.toList ++ writtenItems is
  | .element e :: is => e.written ++ writtenItems is

end

/-- The text of an element. -/
def Element.print (e : Element) : String := String.ofList e.written

/-! ## What can be written -/

mutual

/-- The element can be written at level `depth`, where the names of the open elements take `used`
bytes of memory. -/
def Element.Writable (depth used : Nat) : Element → Prop
  | .mk tag as items _ =>
    depth ≤ maxNesting ∧ IsTagName tag ∧ tag.toList.length ≤ longest ∧
      used + 2 + tag.toList.length < capacity ∧
      (∀ a ∈ as, IsName a.1) ∧ WritableItems (depth + 1) (used + 1 + tag.toList.length) items

def WritableItems (depth used : Nat) : List Item → Prop
  | [] => True
  | .text _ :: is => WritableItems depth used is
  | .element e :: is => e.Writable depth used ∧ WritableItems depth used is

end

/-! ## Reading tags -/

theorem quoted?_escape (cs rest : List Char) :
    quoted? (· == '<') ('"' :: (escape cs ++ '"' :: rest)) = some (escape cs, rest) := by
  have hrun : ∀ c ∈ escape cs, (c != '"') = true := by
    intro c hc
    simpa using (ne_of_mem_escape hc).2.2.1
  have hstop : Stops (· != '"') ('"' :: rest) := stops_cons (by decide)
  have hlt : (escape cs).any (· == '<') = false := by
    rw [List.any_eq_false]
    intro c hc
    simpa using (ne_of_mem_escape hc).1
  rw [quoted?, if_pos (by decide), dropWhile_append_of_stops hrun hstop,
    takeWhile_append_of_stops hrun hstop]
  simp [hlt, wellReferenced_escape]

theorem attribute?_written {a : String × String} (h : IsName a.1) (rest : List Char) :
    attribute? (a.1.toList ++ '=' :: '"' :: (escape a.2.toList ++ '"' :: rest)) =
      some (a, rest) := by
  have hskip : ∀ c rest, isSpace c = false → skipSpace (c :: rest) = c :: rest :=
    fun c rest hc => skipSpace_of_stops (stops_cons hc)
  rw [attribute?, name?_append h (stops_cons (by decide))]
  simp only [hskip '=' _ (by decide), hskip '"' _ (by decide), quoted?_escape, Option.map_some,
    decode_escape, String.ofList_toList]

/-- The attributes are read back, in order. -/
theorem attributes_written {as : Attributes} (h : ∀ a ∈ as, IsName a.1) (rest : List Char) :
    attributes (as.flatMap writtenAttribute ++ '>' :: rest) = (as, '>' :: rest) := by
  induction as with
  | nil => exact attributes_of_space?_eq_none rfl
  | cons a as ih =>
    obtain ⟨c, cs, hname, hc, -⟩ := h a List.mem_cons_self
    have hspace : space? ((a :: as).flatMap writtenAttribute ++ '>' :: rest) =
        some (a.1.toList ++ '=' :: '"' :: (escape a.2.toList ++
          '"' :: (as.flatMap writtenAttribute ++ '>' :: rest))) := by
      have hstop := not_isSpace_of_isNameChar (isNameChar_of_isNameStart hc)
      rw [List.flatMap_cons, writtenAttribute, hname]
      simp [space?, isSpace, skipSpace_of_stops (stops_cons hstop)]
    rw [attributes_of_attribute? hspace (attribute?_written (h a List.mem_cons_self) _),
      ih fun b hb => h b (List.mem_cons_of_mem _ hb)]

theorem stops_isNameChar_written (as : Attributes) (rest : List Char) :
    Stops isNameChar (as.flatMap writtenAttribute ++ '>' :: rest) := by
  cases as with
  | nil => exact stops_cons (by decide)
  | cons a as => exact stops_cons (by decide)

theorem startTag?_written {tag : String} {as : Attributes} (htag : IsTagName tag)
    (has : ∀ a ∈ as, IsName a.1) (rest : List Char) :
    startTag? (tag.toList ++ (as.flatMap writtenAttribute ++ '>' :: rest)) =
      some (⟨tag.toList, as, false⟩, rest) := by
  rw [startTag?, tagName?_append htag (stops_isNameChar_written as rest)]
  have hend : skipSpace ('>' :: rest) = '>' :: rest := skipSpace_of_stops (stops_cons (by decide))
  simp only [attributes_written has, hend]

theorem endTag?_written {tag : String} (htag : IsTagName tag) (rest : List Char) :
    endTag? (tag.toList ++ '>' :: rest) = some (tag.toList, rest) := by
  rw [endTag?, tagName?_append htag (stops_cons (by decide))]
  simp only [skipSpace_of_stops (stops_cons (by decide : isSpace '>' = false))]

end BehaviorIndex.Markup
