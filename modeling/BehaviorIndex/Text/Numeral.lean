/-!
# Numerals

Digits in a base up to sixteen, and the numbers that a run of digits denotes. A reader that admits
a leading sign says so in its name.
-/

namespace BehaviorIndex.Text

/-- The value of a digit in `base`, letters of either case counting from ten. -/
def digit? (base : Nat) (c : Char) : Option Nat :=
  let n :=
    if '0' ≤ c ∧ c ≤ '9' then some (c.toNat - '0'.toNat)
    else if 'a' ≤ c ∧ c ≤ 'z' then some (c.toNat - 'a'.toNat + 10)
    else if 'A' ≤ c ∧ c ≤ 'Z' then some (c.toNat - 'A'.toNat + 10)
    else none
  n.filter (· < base)

/-- Reads further digits after the number `n`. -/
def readDigits (base : Nat) (n : Nat) : List Char → Option Nat
  | [] => some n
  | c :: cs => (digit? base c).bind fun d => readDigits base (n * base + d) cs

/-- The number written by a non-empty run of digits. -/
def natOf? (base : Nat) : List Char → Option Nat
  | [] => none
  | cs => readDigits base 0 cs

/-- `natOf?` with an optional leading plus sign, for numbers below `bound`. -/
def boundedOf? (base bound : Nat) (cs : List Char) : Option Nat :=
  let digits := match cs with
    | '+' :: cs => cs
    | cs => cs
  (natOf? base digits).filter (· < bound)

end BehaviorIndex.Text
