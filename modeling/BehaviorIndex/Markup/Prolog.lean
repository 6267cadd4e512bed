import BehaviorIndex.Markup.Token

/-!
# Around the root element

Before the root element a document may have a declaration of its version, and a document type.
Space, comments and instructions may stand before, between and after all of these. Nothing of it has
a meaning here: each reader gives what follows.
-/

namespace BehaviorIndex.Markup

/-! ## Quoted literals -/

/-- A quoted text of characters of a class, given the quote, and what follows it. -/
def quotedRun? (p : Char → Char → Bool) : List Char → Option (List Char × List Char)
  | [] => none
  | q :: cs =>
    if q == '"' || q == '\'' then
      match cs.dropWhile fun c => c != q && p q c with
      | c :: rest => if c == q then some (cs.takeWhile fun c => c != q && p q c, rest) else none
      | [] => none
    else none

def systemLiteral? (cs : List Char) : Option (List Char) :=
  (quotedRun? (fun _ _ => true) cs).map (·.2)

def isPublicChar (c : Char) : Bool :=
  c.isAlphanum || " \r\n-'()+,./:=?;!*#@$_%".toList.contains c

def publicLiteral? (cs : List Char) : Option (List Char) :=
  (quotedRun? (fun _ c => isPublicChar c) cs).map (·.2)

/-! ## The declaration of the version -/

def isVersion : List Char → Bool
  | '1' :: '.' :: digits => !digits.isEmpty && digits.all Char.isDigit
  | _ => false

def isEncoding : List Char → Bool
  | [] => false
  | c :: cs => c.isAlpha && cs.all fun c => c.isAlphanum || c == '.' || c == '_' || c == '-'

def isStandalone (cs : List Char) : Bool := cs == "yes".toList || cs == "no".toList

/-- Space, `key`, an equals sign, and a quoted value that satisfies `valid`. -/
def setting? (key : String) (valid : List Char → Bool) (cs : List Char) : Option (List Char) := do
  let cs ← space? cs
  let cs ← literal? key cs
  let cs ← literal? "=" (skipSpace cs)
  let (value, rest) ← quotedRun? (fun _ _ => true) (skipSpace cs)
  if valid value then some rest else none

/-- What follows the declaration at the start of a text. -/
def declaration? (cs : List Char) : Option (List Char) := do
  let cs ← literal? "<?xml" cs
  let cs ← setting? "version" isVersion cs
  let cs := (setting? "encoding" isEncoding cs).getD cs
  let cs := (setting? "standalone" isStandalone cs).getD cs
  literal? "?>" (skipSpace cs)

/-! ## The document type -/

/-- What follows the external identifier at the start of a text. -/
def externalId? (cs : List Char) : Option (List Char) :=
  match literal? "SYSTEM" cs with
  | some cs => (space? cs).bind systemLiteral?
  | none => do
    let cs ← literal? "PUBLIC" cs
    let cs ← space? cs
    let cs ← publicLiteral? cs
    let cs ← space? cs
    systemLiteral? cs

/-- Space, then a name. -/
def spacedName? (cs : List Char) : Option (List Char) := do
  let cs ← space? cs
  let (_, rest) ← name? cs
  some rest

/-- Space, then one of the given words. -/
def spacedWord? (words : List String) (cs : List Char) : Option (List Char) := do
  let cs ← space? cs
  words.findSome? fun w => literal? w cs

/-- The content model of an element: nothing, anything, or character data. -/
def contentModel? (cs : List Char) : Option (List Char) :=
  literal? "EMPTY" cs <|> literal? "ANY" cs <|> do
    let cs ← literal? "(" cs
    let cs ← literal? "#PCDATA" (skipSpace cs)
    literal? ")" (skipSpace cs)

def elementDecl? (cs : List Char) : Option (List Char) := do
  let cs ← literal? "<!ELEMENT" cs
  let cs ← spacedName? cs
  let cs ← space? cs
  let cs ← contentModel? cs
  literal? ">" (skipSpace cs)

def entityDecl? (cs : List Char) : Option (List Char) := do
  let cs ← literal? "<!ENTITY" cs
  let cs ← spacedName? cs
  let cs ← space? cs
  let (_, cs) ← quoted? (fun c => c == '<' || c == '%') cs
  literal? ">" (skipSpace cs)

def attributeDecl? (cs : List Char) : Option (List Char) := do
  let cs ← literal? "<!ATTLIST" cs
  let cs ← spacedName? cs
  let cs ← spacedName? cs
  let cs ← spacedWord? ["CDATA", "ID"] cs
  let cs ← spacedWord? ["#REQUIRED", "#IMPLIED"] cs
  literal? ">" (skipSpace cs)

/-- What follows an item of the document type's inner list. -/
def innerItem? (cs : List Char) : Option (List Char) :=
  comment? cs <|> (literal? "<?" cs).bind (instruction? false) <|> elementDecl? cs <|>
    entityDecl? cs <|> attributeDecl? cs

/-- What separates items: space, or a reference to a parameter. -/
def separator? (cs : List Char) : Option (List Char) :=
  space? cs <|> do
    let cs ← literal? "%" cs
    let (_, rest) ← name? cs
    literal? ";" rest

theorem length_of_spacedName? {cs rest : List Char} (h : spacedName? cs = some rest) :
    rest.length < cs.length := by
  simp only [spacedName?, Option.bind_eq_bind, Option.bind_eq_some_iff, Prod.exists,
    Option.some.injEq] at h
  obtain ⟨r, hr, _, _, hn, rfl⟩ := h
  have := length_of_space? hr
  have := length_of_name? hn
  omega

theorem length_of_spacedWord? {words : List String} {cs rest : List Char}
    (h : spacedWord? words cs = some rest) : rest.length < cs.length := by
  simp only [spacedWord?, Option.bind_eq_bind, Option.bind_eq_some_iff] at h
  obtain ⟨r, hr, h⟩ := h
  obtain ⟨w, -, hw⟩ := List.exists_of_findSome?_eq_some h
  have := length_of_space? hr
  have := length_of_literal? hw
  omega

theorem length_of_contentModel? {cs rest : List Char} (h : contentModel? cs = some rest) :
    rest.length ≤ cs.length := by
  simp only [contentModel?, Option.orElse_eq_orElse, Option.orElse_eq_or, Option.or_eq_some_iff,
    Option.bind_eq_bind, Option.bind_eq_some_iff] at h
  rcases h with h | ⟨-, h | ⟨-, r, hr, r', hr', h⟩⟩
  · have := length_of_literal? h
    omega
  · have := length_of_literal? h
    omega
  · have h₁ := length_of_literal? hr
    have h₂ := length_of_literal? hr'
    have h₃ := length_of_literal? h
    have := length_skipSpace_le r
    have := length_skipSpace_le r'
    omega

theorem length_of_elementDecl? {cs rest : List Char} (h : elementDecl? cs = some rest) :
    rest.length ≤ cs.length := by
  simp only [elementDecl?, Option.bind_eq_bind, Option.bind_eq_some_iff] at h
  obtain ⟨a, ha, b, hb, c, hc, d, hd, h⟩ := h
  have := length_of_literal? ha
  have := length_of_spacedName? hb
  have := length_of_space? hc
  have := length_of_contentModel? hd
  have := length_skipSpace_le d
  have := length_of_literal? h
  omega

theorem length_of_entityDecl? {cs rest : List Char} (h : entityDecl? cs = some rest) :
    rest.length ≤ cs.length := by
  simp only [entityDecl?, Option.bind_eq_bind, Option.bind_eq_some_iff, Prod.exists] at h
  obtain ⟨a, ha, b, hb, c, hc, _, d, hd, h⟩ := h
  have := length_of_literal? ha
  have := length_of_spacedName? hb
  have := length_of_space? hc
  have := length_of_quoted? hd
  have := length_skipSpace_le d
  have := length_of_literal? h
  omega

theorem length_of_attributeDecl? {cs rest : List Char} (h : attributeDecl? cs = some rest) :
    rest.length ≤ cs.length := by
  simp only [attributeDecl?, Option.bind_eq_bind, Option.bind_eq_some_iff] at h
  obtain ⟨a, ha, b, hb, c, hc, d, hd, e, he, h⟩ := h
  have := length_of_literal? ha
  have := length_of_spacedName? hb
  have := length_of_spacedName? hc
  have := length_of_spacedWord? hd
  have := length_of_spacedWord? he
  have := length_skipSpace_le e
  have := length_of_literal? h
  omega

theorem length_of_innerItem? {cs rest : List Char} (h : innerItem? cs = some rest) :
    rest.length ≤ cs.length := by
  simp only [innerItem?, Option.orElse_eq_orElse, Option.orElse_eq_or, Option.or_eq_some_iff,
    Option.bind_eq_some_iff] at h
  rcases h with h | ⟨-, ⟨r, hr, h⟩ | ⟨-, h | ⟨-, h | ⟨-, h⟩⟩⟩⟩
  · exact Nat.le_of_lt (length_of_comment? h)
  · have := length_of_literal? hr
    have := length_of_instruction? h
    omega
  · exact length_of_elementDecl? h
  · exact length_of_entityDecl? h
  · exact length_of_attributeDecl? h

theorem length_of_separator? {cs rest : List Char} (h : separator? cs = some rest) :
    rest.length < cs.length := by
  simp only [separator?, Option.orElse_eq_orElse, Option.orElse_eq_or, Option.or_eq_some_iff,
    Option.bind_eq_bind, Option.bind_eq_some_iff, Prod.exists] at h
  rcases h with h | ⟨-, r, hr, _, _, hn, h⟩
  · exact length_of_space? h
  · have := length_of_literal? hr
    have := length_of_name? hn
    have := length_of_literal? h
    omega

/-- What follows as many items as can be read, each with its separator. -/
def innerItems (cs : List Char) : List Char :=
  match _hi : innerItem? cs with
  | none => cs
  | some behind =>
    match _hs : separator? behind with
    | none => cs
    | some rest => innerItems (skipSpace rest)
termination_by cs.length
decreasing_by
  have := length_of_innerItem? _hi
  have := length_of_separator? _hs
  have := length_skipSpace_le rest
  omega

/-- The bracketed inner list. -/
def innerList? (cs : List Char) : Option (List Char) := do
  let cs ← literal? "[" cs
  literal? "]" (innerItems (skipSpace cs))

/-- What follows the document type at the start of a text. -/
def doctype? (cs : List Char) : Option (List Char) := do
  let cs ← literal? "<!DOCTYPE" cs
  let cs ← spacedName? cs
  let cs := ((space? cs).bind externalId?).getD cs
  let cs := skipSpace cs
  let cs := ((innerList? cs).map skipSpace).getD cs
  literal? ">" cs

/-! ## Space, comments and instructions -/

/-- One comment or instruction outside the root element. -/
def aside? (cs : List Char) : Option (List Char) :=
  comment? cs <|> (literal? "<?" cs).bind (instruction? true)

theorem length_of_aside? {cs rest : List Char} (h : aside? cs = some rest) :
    rest.length < cs.length := by
  rw [aside?, Option.orElse_eq_orElse, Option.orElse_eq_or, Option.or_eq_some_iff] at h
  rcases h with h | ⟨-, h⟩
  · exact length_of_comment? h
  · simp only [Option.bind_eq_some_iff] at h
    obtain ⟨r, hr, h⟩ := h
    have h₁ := length_of_literal? hr
    have h₂ := length_of_instruction? h
    omega

/-- What follows all space, comments and instructions. -/
def skipAsides (cs : List Char) : List Char :=
  match _h : aside? (skipSpace cs) with
  | some rest => skipAsides rest
  | none => skipSpace cs
termination_by cs.length
decreasing_by
  have h₁ := length_of_aside? _h
  have h₂ := length_skipSpace_le cs
  omega

/-- What follows all that may stand before the root element. -/
def skipProlog (cs : List Char) : List Char :=
  let cs := skipSpace cs
  let cs := skipAsides ((declaration? cs).getD cs)
  match doctype? cs with
  | some rest => skipAsides rest
  | none => cs

end BehaviorIndex.Markup
