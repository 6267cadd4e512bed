/-!
# Measures of text

Offsets into a text count the bytes of its UTF-8 form; columns count UTF-16 units. Both are sums
over the characters, so they are additive on `++`.
-/

namespace BehaviorIndex.Text

/-- The number of UTF-8 bytes. -/
def byteSize : List Char → Nat
  | [] => 0
  | c :: cs => c.utf8Size + byteSize cs

/-- The number of UTF-16 units: two for a character beyond the basic plane, else one. -/
def unitSize (c : Char) : Nat := if 0xFFFF < c.toNat then 2 else 1

def units : List Char → Nat
  | [] => 0
  | c :: cs => unitSize c + units cs

@[simp] theorem byteSize_append (xs ys : List Char) :
    byteSize (xs ++ ys) = byteSize xs + byteSize ys := by
  induction xs with
  | nil => simp [byteSize]
  | cons c cs ih => simp [byteSize, ih, Nat.add_assoc]

@[simp] theorem units_append (xs ys : List Char) : units (xs ++ ys) = units xs + units ys := by
  induction xs with
  | nil => simp [units]
  | cons c cs ih => simp [units, ih, Nat.add_assoc]

/-- The characters before byte offset `n`: the longest beginning of the text that fits into `n`
bytes. -/
def takeBytes : Nat → List Char → List Char
  | _, [] => []
  | n, c :: cs => if c.utf8Size ≤ n then c :: takeBytes (n - c.utf8Size) cs else []

/-- The characters from byte offset `n` on. -/
def dropBytes : Nat → List Char → List Char
  | _, [] => []
  | n, c :: cs => if c.utf8Size ≤ n then dropBytes (n - c.utf8Size) cs else c :: cs

theorem takeBytes_append_dropBytes (n : Nat) (cs : List Char) :
    takeBytes n cs ++ dropBytes n cs = cs := by
  induction cs generalizing n with
  | nil => rfl
  | cons c cs ih =>
    by_cases h : c.utf8Size ≤ n
    · simp [takeBytes, dropBytes, h, ih]
    · simp [takeBytes, dropBytes, h]

end BehaviorIndex.Text
