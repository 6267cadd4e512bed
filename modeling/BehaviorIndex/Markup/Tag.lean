import BehaviorIndex.Markup.Reference

/-!
# Tags

A start tag carries attributes: names with quoted values, whose references are decoded. A name may
occur twice, and the attributes keep their order. A tag that ends in `/>` opens and closes its
element at once.
-/

namespace BehaviorIndex.Markup

/-- Attribute names with their decoded values, in the order they are written. -/
abbrev Attributes := List (String × String)

/-- A quoted text without `forbidden` characters in which every ampersand begins a reference, and
what follows it. A reference holds no quote, so the first quote of the opening kind closes the text.
-/
def quoted? (forbidden : Char → Bool) : List Char → Option (List Char × List Char)
  | [] => none
  | q :: cs =>
    if q == '"' || q == '\'' then
      match cs.dropWhile (· != q) with
      | [] => none
      | _ :: rest =>
        let raw := cs.takeWhile (· != q)
        if raw.any forbidden || !wellReferenced raw then none else some (raw, rest)
    else none

/-- An attribute, and what follows it. -/
def attribute? (cs : List Char) : Option ((String × String) × List Char) :=
  match name? cs with
  | none => none
  | some (name, rest) =>
    match skipSpace rest with
    | '=' :: rest =>
      (quoted? (· == '<') (skipSpace rest)).map fun (raw, rest) =>
        ((String.ofList name, String.ofList (decode raw)), rest)
    | _ => none

theorem length_of_quoted? {forbidden : Char → Bool} {cs raw rest : List Char}
    (h : quoted? forbidden cs = some (raw, rest)) : rest.length < cs.length := by
  match cs with
  | [] => simp [quoted?] at h
  | q :: cs =>
    simp only [quoted?] at h
    have := length_dropWhile_le (· != q) cs
    split at h
    · split at h
      · simp at h
      · next hd =>
        split at h
        · simp at h
        · cases h
          rw [hd, List.length_cons] at this
          simp only [List.length_cons]
          omega
    · simp at h

theorem length_of_attribute? {cs rest : List Char} {a : String × String}
    (h : attribute? cs = some (a, rest)) : rest.length < cs.length := by
  unfold attribute? at h
  split at h
  · simp at h
  · next hn =>
    have h₁ := length_of_name? hn
    split at h
    · next r _ r' hs =>
      simp only [Option.map_eq_some_iff, Prod.exists, Prod.mk.injEq] at h
      obtain ⟨raw, t, hq, -, rfl⟩ := h
      have h₂ := length_of_quoted? hq
      have h₃ := length_skipSpace_le r'
      have h₄ := length_skipSpace_le r
      rw [hs, List.length_cons] at h₄
      omega
    · simp at h

/-- The attributes of a tag, each after space, and what follows them. -/
def attributes (cs : List Char) : Attributes × List Char :=
  match _hs : space? cs with
  | none => ([], cs)
  | some r =>
    match _ha : attribute? r with
    | none => ([], cs)
    | some (a, rest) =>
      let (as, rest) := attributes rest
      (a :: as, rest)
termination_by cs.length
decreasing_by
  have h₁ := length_of_space? _hs
  have h₂ := length_of_attribute? _ha
  omega

theorem length_attributes_le (cs : List Char) : (attributes cs).2.length ≤ cs.length := by
  fun_induction attributes cs with
  | case1 => simp
  | case2 => simp
  | case3 cs r hs a rest ha as rest' _ ih =>
    have h₁ := length_of_space? hs
    have h₂ := length_of_attribute? ha
    simp_all only
    omega

/-- A start tag: what its element is called, what it carries, and whether it ends in `/>`. -/
structure StartTag where
  tag : List Char
  attributes : Attributes
  selfClosing : Bool

/-- The start tag whose `<` stands before `cs`, and what follows it. -/
def startTag? (cs : List Char) : Option (StartTag × List Char) :=
  match tagName? cs with
  | none => none
  | some (tag, rest) =>
    let (attrs, rest) := attributes rest
    match skipSpace rest with
    | '/' :: '>' :: rest => some (⟨tag, attrs, true⟩, rest)
    | '>' :: rest => some (⟨tag, attrs, false⟩, rest)
    | _ => none

/-- The name in the end tag whose `</` stands before `cs`, and what follows the tag. -/
def endTag? (cs : List Char) : Option (List Char × List Char) :=
  match tagName? cs with
  | none => none
  | some (name, rest) =>
    match skipSpace rest with
    | '>' :: rest => some (name, rest)
    | _ => none

theorem length_of_startTag? {cs rest : List Char} {t : StartTag}
    (h : startTag? cs = some (t, rest)) : rest.length < cs.length := by
  unfold startTag? at h
  split at h
  · simp at h
  · next tag r hn =>
    have h₁ := length_of_tagName? hn
    have h₂ := length_attributes_le r
    have h₃ := length_skipSpace_le (attributes r).2
    simp only at h
    split at h
    · next hs =>
      cases h
      rw [hs] at h₃
      simp only [List.length_cons] at h₃
      omega
    · next hs =>
      cases h
      rw [hs] at h₃
      simp only [List.length_cons] at h₃
      omega
    · simp at h

theorem length_of_endTag? {cs name rest : List Char} (h : endTag? cs = some (name, rest)) :
    rest.length < cs.length := by
  unfold endTag? at h
  split at h
  · simp at h
  · next r hn =>
    have h₁ := length_of_tagName? hn
    have h₃ := length_skipSpace_le r
    split at h
    · next hs =>
      cases h
      rw [hs] at h₃
      simp only [List.length_cons] at h₃
      omega
    · simp at h

end BehaviorIndex.Markup
