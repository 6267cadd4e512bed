import BehaviorIndex.Markup.Name
import BehaviorIndex.Text.Numeral

/-!
# References

A reference stands for a character: `&lt;` by name, `&#60;` and `&#x3C;` by number.

The grammar admits a reference by its form alone (`reference?`), with any name and any number.
`decode` then replaces those that denote a character and keeps every other one as it is written. It
is more liberal than the grammar, because it reads any text: what stands between `&` and the next
`;` is tried as a reference, whatever it is.
-/

namespace BehaviorIndex.Markup

open Text

/-! ## Form -/

/-- A non-empty run of characters of a class, then a semicolon. -/
def closedRun? (p : Char → Bool) (cs : List Char) : Option (List Char × List Char) :=
  match cs.takeWhile p, cs.dropWhile p with
  | [], _ => none
  | run, ';' :: rest => some (run ++ [';'], rest)
  | _, _ => none

/-- The reference whose ampersand stands before `cs`: its text after the ampersand, and what
follows. -/
def reference? : List Char → Option (List Char × List Char)
  | '#' :: 'x' :: cs => (closedRun? (fun c => (digit? 16 c).isSome) cs).map fun (r, rest) =>
      ('#' :: 'x' :: r, rest)
  | '#' :: cs => (closedRun? Char.isDigit cs).map fun (r, rest) => ('#' :: r, rest)
  | cs =>
    match name? cs with
    | some (name, ';' :: rest) => some (name ++ [';'], rest)
    | _ => none

/-- Every ampersand begins a reference. -/
def wellReferenced : List Char → Bool
  | [] => true
  | c :: cs => (c != '&' || (reference? cs).isSome) && wellReferenced cs

/-! ## Meaning -/

/-- The references by name that denote a character. -/
def predefined : List (List Char × Char) :=
  [(['l', 't'], '<'), (['g', 't'], '>'), (['a', 'm', 'p'], '&'), (['q', 'u', 'o', 't'], '"'),
    (['a', 'p', 'o', 's'], '\'')]

/-- The character with a given code, if the code is a scalar value. -/
def charOf? (n : Nat) : Option Char :=
  if n.isValidChar then some (Char.ofNat n) else none

/-- The number in the body of a reference: hexadecimal after `#x` or `#X`, decimal after `#`,
below 2³². -/
def codeOf? : List Char → Option Nat
  | '#' :: 'x' :: digits | '#' :: 'X' :: digits => boundedOf? 16 UInt32.size digits
  | '#' :: digits => boundedOf? 10 UInt32.size digits
  | _ => none

/-- The character that a reference body denotes. -/
def denoted? (body : List Char) : Option Char :=
  match predefined.lookup body with
  | some c => some c
  | none => (codeOf? body).bind charOf?

/-- A text with its references replaced by the characters they denote, in one pass. -/
def decode : List Char → List Char
  | [] => []
  | c :: cs =>
    if c = '&' then
      match _h : cs.dropWhile (· != ';') with
      | [] => c :: cs
      | semi :: rest =>
        let body := cs.takeWhile (· != ';')
        match denoted? body with
        | some d => d :: decode rest
        | none => c :: body ++ semi :: decode rest
    else c :: decode cs
termination_by cs => cs.length
decreasing_by
  all_goals simp only [List.length_cons]
  · have := length_dropWhile_le (· != ';') cs
    rw [_h, List.length_cons] at this
    omega
  · have := length_dropWhile_le (· != ';') cs
    rw [_h, List.length_cons] at this
    omega
  · omega

/-- `decode` on strings. -/
def decodeText (s : String) : String := String.ofList (decode s.toList)

/-! ## What is left is shorter -/

theorem length_of_closedRun? {p : Char → Bool} {cs run rest : List Char}
    (h : closedRun? p cs = some (run, rest)) : rest.length < cs.length := by
  unfold closedRun? at h
  have := length_dropWhile_le p cs
  split at h
  · simp at h
  · next hd _ =>
    cases h
    rw [hd, List.length_cons] at this
    omega
  · simp at h

theorem length_of_reference? {cs body rest : List Char} (h : reference? cs = some (body, rest)) :
    rest.length < cs.length := by
  unfold reference? at h
  split at h
  · simp only [Option.map_eq_some_iff, Prod.exists, Prod.mk.injEq] at h
    obtain ⟨r, t, hr, -, rfl⟩ := h
    have := length_of_closedRun? hr
    simp only [List.length_cons]
    omega
  · simp only [Option.map_eq_some_iff, Prod.exists, Prod.mk.injEq] at h
    obtain ⟨r, t, hr, -, rfl⟩ := h
    have := length_of_closedRun? hr
    simp only [List.length_cons]
    omega
  · split at h
    · next hn =>
      cases h
      have := length_of_name? hn
      simp only [List.length_cons] at this
      omega
    · simp at h

end BehaviorIndex.Markup
