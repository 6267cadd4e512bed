import BehaviorIndex.Markup.Token
import BehaviorIndex.Proofs.Markup.Name

/-!
# Escaping

The five characters with a meaning in markup are written as references by name, and all others as
they are. An escaped text holds none of the characters it stands for but the ampersand, and every
ampersand in it begins a reference; decoding it gives the text back.
-/

namespace BehaviorIndex.Markup

/-! ## Escapes -/

/-- The name of the reference that stands for a character with a meaning in markup. -/
def referenceName? : Char → Option (List Char)
  | '&' => some ['a', 'm', 'p']
  | '<' => some ['l', 't']
  | '>' => some ['g', 't']
  | '"' => some ['q', 'u', 'o', 't']
  | '\'' => some ['a', 'p', 'o', 's']
  | _ => none

def escapeChar (c : Char) : List Char :=
  match referenceName? c with
  | some name => '&' :: (name ++ [';'])
  | none => [c]

/-- A text with references in place of the characters that have a meaning in markup. -/
def escape (cs : List Char) : List Char := cs.flatMap escapeChar

theorem escape_cons (c : Char) (cs : List Char) : escape (c :: cs) = escapeChar c ++ escape cs :=
  List.flatMap_cons

theorem escape_append (cs ds : List Char) : escape (cs ++ ds) = escape cs ++ escape ds :=
  List.flatMap_append

/-- The names are those by which references denote the characters. -/
theorem referenceName?_spec {c : Char} {name : List Char} (h : referenceName? c = some name) :
    denoted? name = some c ∧ name.all Char.isAlpha = true := by
  unfold referenceName? at h
  split at h <;> cases h <;> decide

theorem ne_of_referenceName?_eq_none {c : Char} (h : referenceName? c = none) :
    c ≠ '&' ∧ c ≠ '<' ∧ c ≠ '>' ∧ c ≠ '"' ∧ c ≠ '\'' := by
  unfold referenceName? at h
  split at h <;> simp_all

theorem not_isMarkup_of_referenceName?_eq_none {c : Char} (h : referenceName? c = none) :
    isMarkup c = false := by
  obtain ⟨hamp, hlt, -⟩ := ne_of_referenceName?_eq_none h
  simp [isMarkup, hamp, hlt]

theorem escape_of_plain {cs : List Char} (h : ∀ c ∈ cs, referenceName? c = none) :
    escape cs = cs := by
  induction cs with
  | nil => rfl
  | cons c cs ih =>
    rw [escape_cons, ih fun d hd => h d (List.mem_cons_of_mem _ hd), escapeChar,
      h c List.mem_cons_self]
    rfl

/-- An escaped text holds neither angle brackets nor quotes. -/
theorem ne_of_mem_escape {c : Char} {cs : List Char} (h : c ∈ escape cs) :
    c ≠ '<' ∧ c ≠ '>' ∧ c ≠ '"' ∧ c ≠ '\'' := by
  obtain ⟨d, -, hc⟩ := List.mem_flatMap.mp h
  unfold escapeChar at hc
  split at hc
  · next name hname =>
    have halpha := List.all_eq_true.mp (referenceName?_spec hname).2
    rcases List.mem_cons.mp hc with rfl | hc
    · decide
    · rcases List.mem_append.mp hc with hc | hc
      · have := halpha c hc
        refine ⟨?_, ?_, ?_, ?_⟩ <;> rintro rfl <;> simp at this
      · obtain rfl := List.mem_singleton.mp hc
        decide
  · next hname =>
    obtain rfl := List.mem_singleton.mp hc
    exact (ne_of_referenceName?_eq_none hname).2

/-! ## References in an escaped text -/

/-- The name of a character is a reference, read back as it is written. -/
theorem reference?_referenceName {c : Char} {name : List Char} (h : referenceName? c = some name)
    (rest : List Char) : reference? (name ++ ';' :: rest) = some (name ++ [';'], rest) := by
  unfold referenceName? at h
  split at h <;> cases h <;> simp [reference?, name?, isNameStart, isNameChar]

theorem wellReferenced_append {cs rest : List Char} (h : ∀ c ∈ cs, c ≠ '&') :
    wellReferenced (cs ++ rest) = wellReferenced rest := by
  induction cs with
  | nil => rfl
  | cons c cs ih =>
    rw [List.cons_append, wellReferenced, ih fun d hd => h d (List.mem_cons_of_mem _ hd)]
    simp [h c List.mem_cons_self]

/-- Every ampersand of an escaped text begins a reference. -/
theorem wellReferenced_escape (cs : List Char) : wellReferenced (escape cs) = true := by
  induction cs with
  | nil => rfl
  | cons c cs ih =>
    rw [escape_cons, escapeChar]
    cases h : referenceName? c with
    | none =>
      rw [wellReferenced_append fun d hd => ?_, ih]
      rw [List.mem_singleton.mp hd]
      exact (ne_of_referenceName?_eq_none h).1
    | some name =>
      have hname : ∀ d ∈ name ++ [';'], d ≠ '&' := by
        have halpha := List.all_eq_true.mp (referenceName?_spec h).2
        intro d hd
        rcases List.mem_append.mp hd with hd | hd
        · rintro rfl
          exact absurd (halpha _ hd) (by decide)
        · rw [List.mem_singleton.mp hd]
          decide
      show wellReferenced ('&' :: (name ++ [';'] ++ escape cs)) = true
      rw [wellReferenced, wellReferenced_append hname, ih, List.append_assoc, List.singleton_append,
        reference?_referenceName h]
      rfl

theorem decode_cons_of_ne {c : Char} (h : c ≠ '&') (cs : List Char) :
    decode (c :: cs) = c :: decode cs := by
  rw [decode, if_neg h]

theorem decode_of_notMem {cs : List Char} (h : '&' ∉ cs) : decode cs = cs := by
  induction cs with
  | nil => rw [decode]
  | cons c cs ih =>
    obtain ⟨hc, hcs⟩ := List.ne_and_not_mem_of_not_mem_cons h
    rw [decode_cons_of_ne hc.symm, ih hcs]

/-- A reference is decoded if it denotes a character, and else kept. -/
theorem decode_reference {body : List Char} (h : ';' ∉ body) (rest : List Char) :
    decode ('&' :: (body ++ ';' :: rest)) =
      (match denoted? body with
        | some c => [c]
        | none => '&' :: (body ++ [';'])) ++ decode rest := by
  have hrun : ∀ d ∈ body, (d != ';') = true := by
    intro d hd
    rw [bne_iff_ne]
    rintro rfl
    exact h hd
  have hdrop : (body ++ ';' :: rest).dropWhile (· != ';') = ';' :: rest :=
    dropWhile_append_of_stops hrun (stops_cons (by decide))
  have htake : (body ++ ';' :: rest).takeWhile (· != ';') = body :=
    takeWhile_append_of_stops hrun (stops_cons (by decide))
  rw [decode, if_pos rfl]
  split
  · next h => simp [hdrop] at h
  · next semi rest' h =>
    obtain ⟨rfl, rfl⟩ := List.cons.inj (hdrop.symm.trans h)
    simp only [htake]
    cases denoted? body with
    | some c => rfl
    | none => simp

/-- A reference by name is decoded to the character. -/
theorem decode_referenceName {c : Char} {name : List Char} (h : referenceName? c = some name)
    (rest : List Char) : decode ('&' :: (name ++ ';' :: rest)) = c :: decode rest := by
  obtain ⟨hdenoted, halpha⟩ := referenceName?_spec h
  have hsemi : ';' ∉ name := by
    intro hmem
    exact absurd (List.all_eq_true.mp halpha ';' hmem) (by decide)
  rw [decode_reference hsemi, hdenoted]
  rfl

/-- **Decoding undoes escaping.** -/
theorem decode_escape (cs : List Char) : decode (escape cs) = cs := by
  induction cs with
  | nil => simp [escape, decode]
  | cons c cs ih =>
    rw [escape_cons, escapeChar]
    cases h : referenceName? c with
    | none => rw [List.singleton_append, decode_cons_of_ne (ne_of_referenceName?_eq_none h).1, ih]
    | some name =>
      show decode ('&' :: (name ++ [';'] ++ escape cs)) = c :: cs
      rw [List.append_assoc, List.singleton_append, decode_referenceName h, ih]

end BehaviorIndex.Markup
