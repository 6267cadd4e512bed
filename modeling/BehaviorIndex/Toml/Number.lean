import BehaviorIndex.Text.Numeral

/-!
# Numbers

Integers in base ten, or behind a mark in base sixteen, eight and two; and floats, which have a
fraction or an exponent, or are infinite or no number. An underscore may stand between two digits. A
number in base ten does not start with a zero, unless it is one.
-/

namespace BehaviorIndex.Toml

open Text

/-! ## Digits -/

/-- Reads the digits that follow a digit, each perhaps behind an underscore: their characters and
what follows. An underscore that no digit follows is left. -/
def readMore (base : Nat) : List Char → List Char × List Char
  | [] => ([], [])
  | c :: cs =>
    if (digit? base c).isSome then
      let (digits, rest) := readMore base cs
      (c :: digits, rest)
    else if c = '_' then
      match cs with
      | d :: cs =>
        if (digit? base d).isSome then
          let (digits, rest) := readMore base cs
          (d :: digits, rest)
        else ([], c :: d :: cs)
      | [] => ([], [c])
    else ([], c :: cs)

/-- Reads digits; zeros in front are allowed. -/
def readDigits? (base : Nat) : List Char → Option (List Char × List Char)
  | [] => none
  | c :: cs =>
    if (digit? base c).isSome then
      let (digits, rest) := readMore base cs
      some (c :: digits, rest)
    else none

/-- Reads a number in base ten without a sign. -/
def readDecimal? : List Char → Option (List Char × List Char)
  | '0' :: cs => some (['0'], cs)
  | cs => readDigits? 10 cs

/-- The sign in front of a number. -/
def readSign : List Char → Bool × List Char
  | '+' :: cs => (false, cs)
  | '-' :: cs => (true, cs)
  | cs => (false, cs)

/-! ## Integers -/

/-- An integer of 64 bits with a sign. -/
def bounded? (n : Int) : Option Int := if -Int.pow 2 63 ≤ n ∧ n < Int.pow 2 63 then some n else none

def readInt? (cs : List Char) : Option (Int × List Char) :=
  let marked (base : Nat) (cs : List Char) : Option (Int × List Char) := do
    let (digits, rest) ← readDigits? base cs
    let n ← natOf? base digits
    return (← bounded? n, rest)
  match cs with
  | '0' :: 'x' :: cs => marked 16 cs
  | '0' :: 'o' :: cs => marked 8 cs
  | '0' :: 'b' :: cs => marked 2 cs
  | cs => do
    let (negative, cs) := readSign cs
    let (digits, rest) ← readDecimal? cs
    let n ← natOf? 10 digits
    return (← bounded? (if negative then -(n : Int) else n), rest)

/-! ## Floats -/

/-- The float nearest to `n * 10 ^ e`. Far out of range the exponent is not worked out. -/
def floatOf (n : Nat) (e : Int) : Float :=
  let magnitude : Int := (Nat.toDigits 10 n).length + e
  if n = 0 ∨ magnitude < -400 then 0.0
  else if 400 < magnitude then 1.0 / 0.0
  else if 0 ≤ e then Float.ofScientific n false e.toNat
  else Float.ofScientific n true (-e).toNat

def isInfinite (x : Float) : Bool := x.toBits == 0x7FF0000000000000

/-- The digits of a fraction. -/
def readFraction? : List Char → Option (List Char × List Char)
  | '.' :: cs => readDigits? 10 cs
  | _ => none

def readExponent? : List Char → Option (Int × List Char)
  | c :: cs =>
    if c = 'e' ∨ c = 'E' then do
      let (negative, cs) := readSign cs
      let (digits, rest) ← readDigits? 10 cs
      let n ← natOf? 10 digits
      return (if negative then -(n : Int) else n, rest)
    else none
  | [] => none

def readSpecial? : List Char → Option (Float × List Char)
  | 'i' :: 'n' :: 'f' :: cs => some (1.0 / 0.0, cs)
  | 'n' :: 'a' :: 'n' :: cs => some (0.0 / 0.0, cs)
  | _ => none

/-- A number without a sign that has a fraction or an exponent. One that is too large is refused,
unless it is negative. -/
def readFloat? (cs : List Char) : Option (Float × List Char) :=
  let (negative, cs) := readSign cs
  let signed (x : Float) : Float := if negative then -x else x
  match readSpecial? cs with
  | some (x, rest) => some (signed x, rest)
  | none => do
    let (whole, rest) ← readDecimal? cs
    let (fraction, e, rest) ← match readFraction? rest with
      | some (fraction, rest) =>
        match readExponent? rest with
        | some (e, rest) => some (fraction, e, rest)
        | none => some (fraction, 0, rest)
      | none => (readExponent? rest).map fun (e, rest) => ([], e, rest)
    let n ← natOf? 10 (whole ++ fraction)
    let x := signed (floatOf n (e - fraction.length))
    if isInfinite x then none else some (x, rest)

end BehaviorIndex.Toml
