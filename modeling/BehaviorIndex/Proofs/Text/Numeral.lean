import BehaviorIndex.Text.Numeral
import Mathlib.Data.List.Forall2
import Mathlib.Data.Nat.Digits.Defs

/-!
# What numerals say

A run of characters writes a number in a base if its characters are the digits of the number, the
greatest first, with letters of either case and with any number of zeros in front (`Writes`).

**Theorem (`boundedOf?_eq_some_iff`).** A number is read from exactly those runs that write it,
with an optional plus sign in front.

The usual numeral of a number, with zeros in front, writes the number (`writes_zeros_toDigits`).
-/

namespace BehaviorIndex.Text

/-- The character is the digit of value `v`, a letter being of either case. -/
def IsDigit (base : Nat) (c : Char) (v : Nat) : Prop :=
  v < base ∧ (c = v.digitChar ∨ c = v.digitChar.toUpper)

/-- The characters are digits in `base` that write the number `n`. -/
def Writes (base : Nat) (digits : List Char) (n : Nat) : Prop :=
  digits ≠ [] ∧ ∃ values, List.Forall₂ (IsDigit base) digits values ∧
    Nat.ofDigits base values.reverse = n

/-- The same with an optional plus sign in front of the digits. -/
def WritesSigned (base : Nat) (cs : List Char) (n : Nat) : Prop :=
  Writes base cs n ∨ ∃ digits, cs = '+' :: digits ∧ Writes base digits n

/-! ## Digits -/

theorem digit?_digitChar : ∀ v < 16,
    digit? 16 v.digitChar = some v ∧ digit? 16 v.digitChar.toUpper = some v := by
  decide

theorem toNat_digitChar_letter : ∀ v < 16, 10 ≤ v →
    v.digitChar.toNat = v + 87 ∧ v.digitChar.toUpper.toNat = v + 55 := by
  decide

theorem eq_digitChar_of_digit? {c : Char} {v : Nat} (h : digit? 16 c = some v) :
    c = v.digitChar ∨ c = v.digitChar.toUpper := by
  unfold digit? at h
  rw [Option.filter_eq_some_iff, decide_eq_true_eq] at h
  obtain ⟨h, hv⟩ := h
  split at h
  · next hc =>
    change 48 ≤ c.toNat ∧ c.toNat ≤ 57 at hc
    cases h
    change c.toNat - 48 < 16 at hv
    refine .inl (Char.toNat_inj.mp ?_)
    rw [Nat.toNat_digitChar_of_lt_ten (by change c.toNat - 48 < 10; omega)]
    change c.toNat = 48 + (c.toNat - 48)
    omega
  · split at h
    · next hc =>
      change 97 ≤ c.toNat ∧ c.toNat ≤ 122 at hc
      cases h
      refine .inl (Char.toNat_inj.mp ?_)
      rw [(toNat_digitChar_letter _ hv (by omega)).1]
      change c.toNat = c.toNat - 97 + 10 + 87
      omega
    · split at h
      · next hc =>
        change 65 ≤ c.toNat ∧ c.toNat ≤ 90 at hc
        cases h
        refine .inr (Char.toNat_inj.mp ?_)
        rw [(toNat_digitChar_letter _ hv (by omega)).2]
        change c.toNat = c.toNat - 65 + 10 + 55
        omega
      · cases h

section

variable {base : Nat}

theorem digit?_eq_some_iff (hbase : base ≤ 16) {c : Char} {v : Nat} :
    digit? base c = some v ↔ IsDigit base c v := by
  have hall : digit? base c = some v ↔ digit? 16 c = some v ∧ v < base := by
    simp only [digit?, Option.filter_eq_some_iff, decide_eq_true_eq]
    constructor
    · rintro ⟨h, hv⟩
      exact ⟨⟨h, by omega⟩, hv⟩
    · rintro ⟨⟨h, -⟩, hv⟩
      exact ⟨h, hv⟩
  rw [hall, IsDigit]
  constructor
  · rintro ⟨h, hv⟩
    exact ⟨hv, eq_digitChar_of_digit? h⟩
  · rintro ⟨hv, rfl | rfl⟩
    · exact ⟨(digit?_digitChar v (by omega)).1, hv⟩
    · exact ⟨(digit?_digitChar v (by omega)).2, hv⟩

theorem isDigit_digitChar {v : Nat} (h : v < base) : IsDigit base v.digitChar v := ⟨h, .inl rfl⟩

/-! ## Numbers -/

theorem readDigits_eq_some_iff (hbase : base ≤ 16) {n k : Nat} {cs : List Char} :
    readDigits base n cs = some k ↔ ∃ values, List.Forall₂ (IsDigit base) cs values ∧
      k = n * base ^ values.length + Nat.ofDigits base values.reverse := by
  induction cs generalizing n with
  | nil =>
    simp only [readDigits, Option.some_inj, List.forall₂_nil_left_iff]
    constructor
    · rintro rfl
      exact ⟨[], rfl, by simp⟩
    · rintro ⟨_, rfl, rfl⟩
      simp
  | cons c cs ih =>
    simp only [readDigits, Option.bind_eq_some_iff, digit?_eq_some_iff hbase, ih]
    -- The first digit counts as often as the number of digits behind it says.
    have hvalue : ∀ v (values : List Nat), n * base ^ (v :: values).length +
        Nat.ofDigits base (v :: values).reverse =
          (n * base + v) * base ^ values.length + Nat.ofDigits base values.reverse := by
      intro v values
      rw [List.reverse_cons, Nat.ofDigits_append, Nat.ofDigits_singleton, List.length_reverse,
        List.length_cons]
      ring
    constructor
    · rintro ⟨v, hv, values, hvalues, rfl⟩
      exact ⟨v :: values, .cons hv hvalues, (hvalue v values).symm⟩
    · rintro ⟨_, hall, rfl⟩
      obtain ⟨v, values, hv, hvalues, rfl⟩ := List.forall₂_cons_left_iff.mp hall
      exact ⟨v, hv, values, hvalues, hvalue v values⟩

theorem natOf?_eq_some_iff (hbase : base ≤ 16) {n : Nat} {cs : List Char} :
    natOf? base cs = some n ↔ Writes base cs n := by
  cases cs with
  | nil => simp [natOf?, Writes]
  | cons c cs =>
    rw [natOf?, readDigits_eq_some_iff hbase, Writes]
    · simp [eq_comm]
    · exact List.cons_ne_nil c cs

theorem Writes.isSome_digit? (hbase : base ≤ 16) {digits : List Char} {n : Nat}
    (h : Writes base digits n) {c : Char} (hc : c ∈ digits) : (digit? base c).isSome := by
  obtain ⟨-, values, hvalues, -⟩ := h
  induction hvalues with
  | nil => cases hc
  | cons hv _ ih =>
    rcases List.mem_cons.mp hc with rfl | hc
    · rw [(digit?_eq_some_iff hbase).mpr hv]
      rfl
    · exact ih hc

/-- The characters of a number are a plus sign and digits. -/
theorem WritesSigned.eq_or_isSome (hbase : base ≤ 16) {cs : List Char} {n : Nat}
    (h : WritesSigned base cs n) {c : Char} (hc : c ∈ cs) : c = '+' ∨ (digit? base c).isSome := by
  rcases h with h | ⟨digits, rfl, h⟩
  · exact .inr (h.isSome_digit? hbase hc)
  · rcases List.mem_cons.mp hc with rfl | hc
    · exact .inl rfl
    · exact .inr (h.isSome_digit? hbase hc)

/-- **Reading.** A number is read from the runs of digits that write it. -/
theorem boundedOf?_eq_some_iff (hbase : base ≤ 16) {bound n : Nat} {cs : List Char} :
    boundedOf? base bound cs = some n ↔ n < bound ∧ WritesSigned base cs n := by
  have hplus : digit? base '+' = none := by
    unfold digit?
    rfl
  -- Digits do not begin with a plus sign.
  have hsign : ∀ digits, ¬ Writes base ('+' :: digits) n := by
    intro digits h
    have hsome := h.isSome_digit? hbase List.mem_cons_self
    rw [hplus] at hsome
    cases hsome
  unfold boundedOf?
  rw [Option.filter_eq_some_iff, decide_eq_true_eq, natOf?_eq_some_iff hbase, and_comm,
    WritesSigned]
  refine and_congr_right fun _ => ?_
  split
  · next digits =>
    constructor
    · intro h
      exact .inr ⟨digits, rfl, h⟩
    · rintro (h | ⟨_, heq, h⟩)
      · exact absurd h (hsign digits)
      · cases heq
        exact h
  · next hne =>
    constructor
    · exact .inl
    · rintro (h | ⟨digits, rfl, h⟩)
      · exact h
      · exact absurd rfl (hne digits)

/-! ## The usual numeral -/

theorem writes_toDigits (hbase : 1 < base) (n : Nat) : Writes base (Nat.toDigits base n) n := by
  induction n using Nat.strongRecOn with
  | ind n ih =>
    by_cases hn : n < base
    · rw [Nat.toDigits_of_lt_base hn]
      exact ⟨by simp, [n], .cons (isDigit_digitChar hn) .nil, by simp⟩
    · obtain ⟨-, values, hvalues, hn'⟩ := ih (n / base) (Nat.div_lt_self (by omega) hbase)
      rw [Nat.toDigits_of_base_le hbase (by omega)]
      refine ⟨by simp, values ++ [n % base], ?_, ?_⟩
      · exact List.rel_append hvalues
          (.cons (isDigit_digitChar (Nat.mod_lt n (by omega))) .nil)
      · rw [List.reverse_append, List.reverse_singleton, List.singleton_append, Nat.ofDigits_cons,
          hn']
        exact Nat.mod_add_div n base

theorem writes_zeros_toDigits (hbase : 1 < base) (zeros n : Nat) :
    Writes base (List.replicate zeros '0' ++ Nat.toDigits base n) n := by
  induction zeros with
  | zero => exact writes_toDigits hbase n
  | succ zeros ih =>
    obtain ⟨-, values, hvalues, hn⟩ := ih
    rw [List.replicate_succ, List.cons_append]
    refine ⟨by simp, 0 :: values, .cons (isDigit_digitChar (by omega)) hvalues, ?_⟩
    simp [Nat.ofDigits_append, hn]

end

end BehaviorIndex.Text
