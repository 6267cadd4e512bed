/-!
# Shortest decimals

The decimal with the fewest digits that a binary floating-point number is nearest to. A finite
number is `m · 2^q`; the reals that round to it form an interval around it, whose ends belong to it
when `m` is even. For one digit, two, and so on, the two decimals next to the number are tried; the
first that lies in the interval is taken, and of two the nearer.
-/

namespace BehaviorIndex.Text

/-- A positive number `m · 2^q`; `narrow` when the next smaller number is only half as far away as
the next larger one. -/
structure Binary where
  m : Nat
  q : Int
  narrow : Bool
  deriving DecidableEq, Repr

/-- The digits and the power of ten of a decimal. -/
structure Decimal where
  digits : Nat
  exponent : Int
  deriving DecidableEq, Repr

/-- What a floating-point number is, its sign aside. -/
inductive FloatClass where
  | nan
  | infinite
  | zero
  | finite (b : Binary)
  deriving DecidableEq, Repr

namespace FloatClass

/-- Read off the bits of a number: 52 bits of fraction, 11 of exponent. -/
def ofBits (bits : UInt64) : FloatClass :=
  let fraction := (bits &&& 0xFFFFFFFFFFFFF).toNat
  let exponent := ((bits >>> 52) &&& 0x7FF).toNat
  if exponent = 0x7FF then if fraction = 0 then infinite else nan
  else if exponent = 0 then if fraction = 0 then zero else finite ⟨fraction, -1074, false⟩
  else finite ⟨Nat.pow 2 52 + fraction, Int.ofNat exponent - 1075, fraction == 0 && 1 < exponent⟩

end FloatClass

def isNegative (bits : UInt64) : Bool := (bits >>> 63) == 1

/-- `a · 2^q · 10^(-k)`, as a fraction. -/
def scaled (a : Nat) (q k : Int) : Nat × Nat :=
  (a * Nat.pow 2 q.toNat * Nat.pow 10 (-k).toNat, Nat.pow 2 (-q).toNat * Nat.pow 10 k.toNat)

/-- Compare two fractions with positive denominators. -/
def fractionLt (a b : Nat × Nat) : Bool := decide (a.1 * b.2 < b.1 * a.2)

/-- The decimal `d · 10^k` rounds to the number. -/
def Binary.holds (b : Binary) (d : Nat) (k : Int) : Bool :=
  let lower := scaled (4 * b.m - if b.narrow then 1 else 2) (b.q - 2) k
  let upper := scaled (4 * b.m + 2) (b.q - 2) k
  if b.m % 2 == 0 then !fractionLt (d, 1) lower && !fractionLt upper (d, 1)
  else fractionLt lower (d, 1) && fractionLt (d, 1) upper

/-- The largest `k` with `10^k` at most the number, looked for from `k` downward. -/
def Binary.magnitudeFrom (b : Binary) (k : Int) : Nat → Int
  | 0 => k
  | tries + 1 =>
    let v := scaled b.m b.q k
    if v.1 < v.2 then b.magnitudeFrom (k - 1) tries else k

def Binary.magnitude (b : Binary) : Int := b.magnitudeFrom 309 640

/-- The decimal next to the number with `n` digits, if one rounds to it. -/
def Binary.decimal? (b : Binary) (n : Nat) : Option Decimal :=
  let k := b.magnitude - Int.ofNat n + 1
  let (num, den) := scaled b.m b.q k
  let below := num / den
  let above := below + 1
  match b.holds below k, b.holds above k with
  | true, false => some ⟨below, k⟩
  | false, true => some ⟨above, k⟩
  | true, true =>
    let rest := 2 * (num % den)
    some ⟨if rest < den || (rest == den && below % 2 == 0) then below else above, k⟩
  | false, false => none

/-- A decimal without zeros at its end. -/
def Decimal.trim (d : Decimal) : Nat → Decimal
  | 0 => d
  | tries + 1 =>
    if d.digits % 10 == 0 && d.digits != 0 then
      Decimal.trim ⟨d.digits / 10, d.exponent + 1⟩ tries
    else d

/-- The shortest decimal of a number. Seventeen digits are always enough. -/
def Binary.shortest (b : Binary) : Decimal :=
  let found := (List.range 17).findSome? fun i => b.decimal? (i + 1)
  (found.getD ⟨b.m, 0⟩).trim 400

/-! ## Writing decimals -/

def zeros (n : Nat) : String := "".pushn '0' n

/-- Digits with a point behind the first `whole` of them. -/
def withPoint (digits : String) (whole : Nat) : String :=
  String.ofList (digits.toList.take whole) ++ "." ++ String.ofList (digits.toList.drop whole)

/-- A decimal without an exponent, and without a point when it is whole. -/
def Decimal.positional (d : Decimal) : String :=
  let digits := toString d.digits
  let n := digits.length
  if 0 ≤ d.exponent then digits ++ zeros d.exponent.toNat
  else
    let places := (-d.exponent).toNat
    if places < n then withPoint digits (n - places) else "0." ++ zeros (places - n) ++ digits

/-- A decimal with a point always, and with an exponent when it is large or small: from 10¹⁶ on, and
below 10⁻⁵. -/
def Decimal.pointed (d : Decimal) : String :=
  let digits := toString d.digits
  let n : Int := digits.length
  let point := n + d.exponent
  if 0 ≤ d.exponent && point ≤ 16 then d.positional ++ ".0"
  else if -5 < point && point ≤ 16 then d.positional
  else
    let power := toString (point - 1)
    if digits.length == 1 then digits ++ "e" ++ power else withPoint digits 1 ++ "e" ++ power

/-- The text of a floating-point number, its shortest decimal written by `write`. -/
def floatText (write : Decimal → String) (zero : String) (bits : UInt64) : String :=
  let sign := if isNegative bits then "-" else ""
  match FloatClass.ofBits bits with
  | .nan => "NaN"
  | .infinite => sign ++ "inf"
  | .zero => sign ++ zero
  | .finite b => sign ++ write b.shortest

/-- Without an exponent: `2`, `1.5`, `1000`. -/
def plainFloat (f : Float) : String := floatText Decimal.positional "0" f.toBits

/-- With a point: `2.0`, `1.5`, `1e16`. -/
def pointedFloat (f : Float) : String := floatText Decimal.pointed "0.0" f.toBits

end BehaviorIndex.Text
