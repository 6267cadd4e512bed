import BehaviorIndex.Markup.Reader

/-!
# One token at a time

What `readContent?` does with each kind of token.
-/

namespace BehaviorIndex.Markup

namespace Frame

/-- A frame with further items, in document order. -/
def addAll (f : Frame) (items : List Item) : Frame := { f with items := items.reverse ++ f.items }

theorem addAll_cons (f : Frame) (item : Item) (items : List Item) :
    f.addAll (item :: items) = (f.add item).addAll items := by
  simp [addAll, add]

theorem addAll_append (f : Frame) (items more : List Item) :
    f.addAll (items ++ more) = (f.addAll items).addAll more := by
  simp [addAll]

end Frame

section

variable {lineEnds : Nat} {top : Frame} {outer : List Frame} {cs rest : List Char}

theorem readContent?_eq_none (h : token? cs = none) :
    readContent? lineEnds top outer cs = none := by
  rw [readContent?]
  split <;> simp_all

theorem readContent?_text {t : List Char} (h : token? cs = some (.text t, rest)) :
    readContent? lineEnds top outer cs =
      readContent? lineEnds (top.add (.text (String.ofList t))) outer rest := by
  rw [readContent?]
  split <;> simp_all

theorem readContent?_silent (h : token? cs = some (.silent, rest)) :
    readContent? lineEnds top outer cs = readContent? lineEnds top outer rest := by
  rw [readContent?]
  split <;> simp_all

theorem readContent?_start {t : StartTag} (h : token? cs = some (.start t, rest)) :
    readContent? lineEnds top outer cs =
      if t.selfClosing then readContent? lineEnds (top.add (.element t.toElement)) outer rest
      else readContent? lineEnds (Frame.ofStart top.used t) (top :: outer) rest := by
  rw [readContent?]
  split <;> simp_all

/-- The element of a frame that an end tag closes, and what reading goes on with. -/
theorem readContent?_close {name : List Char} (h : token? cs = some (.close name, rest)) :
    readContent? lineEnds top outer cs =
      if top.closedBy name then
        let e := top.toElement (strayEnd? lineEnds top.tag name cs)
        match outer with
        | [] => some (e, rest)
        | f :: outer => readContent? lineEnds (f.add (.element e)) outer rest
      else none := by
  rw [readContent?.eq_def]
  split <;> next h' => cases h.symm.trans h' <;> rfl

end

end BehaviorIndex.Markup
