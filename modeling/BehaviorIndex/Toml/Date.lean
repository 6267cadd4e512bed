import BehaviorIndex.Text.Numeral

/-!
# Dates and times

A date, a time, or both with an optional offset from universal time. Only whether one is well
written matters here.
-/

namespace BehaviorIndex.Toml

open Text

/-- Reads exactly `n` digits as a number in a range, ends included. -/
def readField? (n lo hi : Nat) (cs : List Char) : Option (Nat × List Char) :=
  if (cs.take n).length < n then none
  else do
    let value ← natOf? 10 (cs.take n)
    if lo ≤ value ∧ value ≤ hi then some (value, cs.drop n) else none

/-- Reads one of some characters. -/
def skipOne? (marks : List Char) : List Char → Option (List Char)
  | c :: cs => if marks.contains c then some cs else none
  | [] => none

def isLeapYear (year : Nat) : Bool := year % 4 == 0 && (year % 100 != 0 || year % 400 == 0)

def daysIn (year month : Nat) : Nat :=
  if month = 2 then if isLeapYear year then 29 else 28
  else if [4, 6, 9, 11].contains month then 30
  else 31

/-- What follows a date. -/
def afterDate? (cs : List Char) : Option (List Char) := do
  let (year, cs) ← readField? 4 0 9999 cs
  let cs ← skipOne? ['-'] cs
  let (month, cs) ← readField? 2 1 12 cs
  let cs ← skipOne? ['-'] cs
  let (_, cs) ← readField? 2 1 (daysIn year month) cs
  return cs

/-- What follows a fraction of a second, if there is one. -/
def skipFraction (cs : List Char) : List Char :=
  match cs with
  | '.' :: d :: rest => if d.isDigit then rest.dropWhile Char.isDigit else cs
  | _ => cs

/-- What follows a time. -/
def afterTime? (cs : List Char) : Option (List Char) := do
  let (_, cs) ← readField? 2 0 23 cs
  let cs ← skipOne? [':'] cs
  let (_, cs) ← readField? 2 0 59 cs
  let cs ← skipOne? [':'] cs
  let (_, cs) ← readField? 2 0 60 cs
  return skipFraction cs

/-- What follows an offset. -/
def afterOffset? (cs : List Char) : Option (List Char) :=
  match skipOne? ['Z', 'z'] cs with
  | some cs => some cs
  | none => do
    let cs ← skipOne? ['+', '-'] cs
    let (_, cs) ← readField? 2 0 23 cs
    let cs ← skipOne? [':'] cs
    let (_, cs) ← readField? 2 0 59 cs
    return cs

/-- What follows a date, a time, or a date and a time. -/
def afterDateTime? (cs : List Char) : Option (List Char) :=
  match afterDate? cs with
  | none => afterTime? cs
  | some rest =>
    match (skipOne? ['T', 't', ' '] rest).bind afterTime? with
    | none => some rest
    | some rest => some ((afterOffset? rest).getD rest)

end BehaviorIndex.Toml
