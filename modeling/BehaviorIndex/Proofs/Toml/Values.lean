import BehaviorIndex.Proofs.Toml.Texts
import BehaviorIndex.Toml.Document
import BehaviorIndex.Toml.Writer

/-!
# Values are read back

**Theorem (`readValue?_writeValue`).** A value of texts, numbers, truth values and lists of them is
read back from what is written for it, if a comma, a bracket or a line end follows.

An integer is read as one that may be negative, whatever it was before (`asRead`); apart from that,
values are read as they are.

A number has the greatest number of readings to rule out: it could begin a date, a time or a float,
or be in another base. What rules them out is that its digits go on to the end of the value
(`Ends`), and that only zero begins with a zero.
-/

namespace BehaviorIndex.Toml

open Data (Value)
open Text

/-- What may stand behind a value. -/
def Ends (rest : List Char) : Prop := ∀ c ∈ rest.head?, c = ',' ∨ c = ']' ∨ c = '\n'

theorem ends_cons {c : Char} (h : c = ',' ∨ c = ']' ∨ c = '\n') (cs : List Char) :
    Ends (c :: cs) := by
  rintro d hd
  cases hd
  exact h

theorem Ends.ne {rest cs : List Char} {c : Char} (h : Ends rest)
    (hc : c ≠ ',' ∧ c ≠ ']' ∧ c ≠ '\n') : rest ≠ c :: cs := by
  rintro rfl
  have := h c rfl
  simp_all

/-! ## Digits -/

/-- The characters are decimal digits. -/
def Decimal (ds : List Char) : Prop := ∀ c ∈ ds, (digit? 10 c).isSome

theorem ne_of_isSome_digit? {c d : Char} (h : (digit? 10 c).isSome) (hd : digit? 10 d = none) :
    c ≠ d := by
  rintro rfl
  rw [hd] at h
  cases h

theorem decimal_toDigits (n : Nat) : Decimal (Nat.toDigits 10 n) :=
  fun _ hc => (writes_toDigits (by decide) n).isSome_digit? (by decide) hc

theorem exists_digit_toDigits_eq (n : Nat) :
    ∃ d ds, Nat.toDigits 10 n = d :: ds ∧ (digit? 10 d).isSome := by
  obtain ⟨d, ds, hds⟩ := List.exists_cons_of_ne_nil (writes_toDigits (by decide : 1 < 10) n).1
  exact ⟨d, ds, hds, decimal_toDigits n d (hds ▸ List.mem_cons_self)⟩

/-- Only zero begins with a zero. -/
theorem exists_toDigits_eq {n : Nat} (h : 0 < n) :
    ∃ c ds, Nat.toDigits 10 n = c :: ds ∧ c ≠ '0' := by
  induction n using Nat.strongRecOn with
  | ind n ih =>
    by_cases hn : n < 10
    · refine ⟨n.digitChar, [], Nat.toDigits_of_lt_base hn, ?_⟩
      have hdigit : ∀ k < 10, 0 < k → k.digitChar ≠ '0' := by decide
      exact hdigit n hn h
    · obtain ⟨c, ds, hds, hc⟩ := ih (n / 10) (by omega) (by omega)
      exact ⟨c, ds ++ [(n % 10).digitChar], by
        rw [Nat.toDigits_of_base_le (by decide) (by omega), hds, List.cons_append], hc⟩

section

variable {ds rest : List Char}

theorem Ends.digit?_eq_none (h : Ends rest) {c : Char} (hc : c ∈ rest.head?) :
    digit? 10 c = none := by
  rcases h c hc with rfl | rfl | rfl <;> rfl

theorem readMore_append (hds : Decimal ds) (hrest : Ends rest) :
    readMore 10 (ds ++ rest) = (ds, rest) := by
  induction ds with
  | nil =>
    cases rest with
    | nil => rfl
    | cons c rest =>
      have hc := hrest.digit?_eq_none rfl
      have hne : c ≠ '_' := fun heq => hrest.ne (by decide) (congrArg (· :: rest) heq)
      rw [List.nil_append, readMore.eq_def]
      simp only [hc, Option.isSome_none, Bool.false_eq_true, if_false, if_neg hne]
  | cons d ds ih =>
    obtain ⟨hd, hds⟩ := List.forall_mem_cons.mp hds
    rw [List.cons_append, readMore.eq_def]
    simp only [if_pos hd, ih hds]

/-- Digits do not go on behind the value. -/
theorem le_length_of_decimal_take {n : Nat} (hrest : Ends rest)
    (hlength : n ≤ ((ds ++ rest).take n).length) (h : Decimal ((ds ++ rest).take n)) :
    n ≤ ds.length := by
  by_contra hlt
  cases rest with
  | nil =>
    rw [List.append_nil, List.length_take] at hlength
    omega
  | cons c rest =>
    have hmem : c ∈ (ds ++ c :: rest).take n := by
      obtain ⟨k, rfl⟩ : ∃ k, n = ds.length + (k + 1) := ⟨n - ds.length - 1, by omega⟩
      rw [List.take_length_add_append, List.take_succ_cons]
      simp
    have hc := h c hmem
    rw [hrest.digit?_eq_none rfl] at hc
    cases hc

/-- A field of digits that is read is part of the digits. -/
theorem exists_of_readField? (hds : Decimal ds) (hrest : Ends rest) {n lo hi value : Nat}
    {behind : List Char} (h : readField? n lo hi (ds ++ rest) = some (value, behind)) :
    ∃ more, Decimal more ∧ behind = more ++ rest := by
  rw [readField?] at h
  split at h
  · cases h
  · next hlength =>
    obtain ⟨value', hvalue, h⟩ := Option.bind_eq_some_iff.mp h
    split at h
    · cases h
      have hwrites := (natOf?_eq_some_iff (by decide)).mp hvalue
      have hle : n ≤ ds.length := le_length_of_decimal_take hrest (Nat.le_of_not_lt hlength)
        fun c => hwrites.isSome_digit? (by decide)
      refine ⟨ds.drop n, fun c hc => hds c (List.mem_of_mem_drop hc), ?_⟩
      rw [List.drop_append_of_le_length hle]
    · cases h

theorem skipOne?_append (hds : Decimal ds) (hrest : Ends rest) {mark : Char}
    (hmark : digit? 10 mark = none) (hends : mark ≠ ',' ∧ mark ≠ ']' ∧ mark ≠ '\n') :
    skipOne? [mark] (ds ++ rest) = none := by
  have hne : ∀ cs, ds ++ rest ≠ mark :: cs := by
    intro cs heq
    cases ds with
    | nil => exact hrest.ne hends heq
    | cons d ds =>
      exact ne_of_isSome_digit? (hds d List.mem_cons_self) hmark (List.cons.inj heq).1
  cases hcs : ds ++ rest with
  | nil => rfl
  | cons c cs =>
    have hc : c ≠ mark := fun heq => hne cs (hcs.trans (congrArg (· :: cs) heq))
    simp [skipOne?, hc]

/-- The digits of a field have no mark behind them. -/
theorem skipOne?_of_readField? (hds : Decimal ds) (hrest : Ends rest) {n lo hi : Nat}
    {read : Nat × List Char} (h : readField? n lo hi (ds ++ rest) = some read) {mark : Char}
    (hmark : digit? 10 mark = none) (hends : mark ≠ ',' ∧ mark ≠ ']' ∧ mark ≠ '\n') :
    skipOne? [mark] read.2 = none := by
  obtain ⟨more, hmore, hread⟩ := exists_of_readField? hds hrest h
  rw [hread]
  exact skipOne?_append hmore hrest hmark hends

theorem afterDateTime?_append (hds : Decimal ds) (hrest : Ends rest) :
    afterDateTime? (ds ++ rest) = none := by
  have hdate : afterDate? (ds ++ rest) = none := by
    rw [afterDate?]
    cases hfield : readField? 4 0 9999 (ds ++ rest) with
    | none => rfl
    | some read =>
      have hmark : skipOne? ['-'] read.2 = none :=
        skipOne?_of_readField? hds hrest hfield rfl (by decide)
      simp [hmark]
  have htime : afterTime? (ds ++ rest) = none := by
    rw [afterTime?]
    cases hfield : readField? 2 0 23 (ds ++ rest) with
    | none => rfl
    | some read =>
      have hmark : skipOne? [':'] read.2 = none :=
        skipOne?_of_readField? hds hrest hfield rfl (by decide)
      simp [hmark]
  rw [afterDateTime?, hdate, htime]

/-! ## Numbers -/

/-- A number begins with a digit. -/
theorem toDigits_append_ne (n : Nat) {c : Char} (hc : digit? 10 c = none) (cs : List Char) :
    Nat.toDigits 10 n ++ rest ≠ c :: cs := by
  obtain ⟨d, ds, hds, hd⟩ := exists_digit_toDigits_eq n
  rw [hds, List.cons_append]
  exact fun heq => ne_of_isSome_digit? hd hc (List.cons.inj heq).1

/-- A zero in front is the whole number. -/
theorem toDigits_append_ne_zero (n : Nat) {c : Char} (hc : c ≠ ',' ∧ c ≠ ']' ∧ c ≠ '\n')
    (hrest : Ends rest) (cs : List Char) : Nat.toDigits 10 n ++ rest ≠ '0' :: c :: cs := by
  intro heq
  rcases Nat.eq_zero_or_pos n with rfl | hn
  · exact hrest.ne hc (List.cons.inj heq).2
  · obtain ⟨d, ds, hds, hd⟩ := exists_toDigits_eq hn
    rw [hds, List.cons_append] at heq
    exact hd (List.cons.inj heq).1

theorem readDecimal?_append (n : Nat) (hrest : Ends rest) :
    readDecimal? (Nat.toDigits 10 n ++ rest) = some (Nat.toDigits 10 n, rest) := by
  rcases Nat.eq_zero_or_pos n with rfl | hn
  · rfl
  · obtain ⟨d, ds, hds, hd⟩ := exists_toDigits_eq hn
    obtain ⟨hdigit, hmore⟩ := List.forall_mem_cons.mp (hds ▸ decimal_toDigits n)
    rw [hds, List.cons_append, readDecimal?, readDigits?, if_pos hdigit,
      readMore_append hmore hrest]
    exact fun cs heq => hd (List.cons.inj heq).1

theorem readSign_append (n : Nat) :
    readSign (Nat.toDigits 10 n ++ rest) = (false, Nat.toDigits 10 n ++ rest) := by
  rw [readSign]
  · exact fun cs => toDigits_append_ne n rfl cs
  · exact fun cs => toDigits_append_ne n rfl cs

theorem readFloat?_append (n : Nat) (hrest : Ends rest) :
    readFloat? (Nat.toDigits 10 n ++ rest) = none := by
  have hspecial : readSpecial? (Nat.toDigits 10 n ++ rest) = none := by
    rw [readSpecial?]
    · exact fun cs => toDigits_append_ne n rfl _
    · exact fun cs => toDigits_append_ne n rfl _
  have hfraction : readFraction? rest = none := by
    rw [readFraction?]
    exact fun cs => hrest.ne (by decide)
  have hexponent : readExponent? rest = none := by
    cases rest with
    | nil => rfl
    | cons c rest =>
      rw [readExponent?, if_neg]
      rintro (rfl | rfl)
      · exact hrest.ne (by decide) rfl
      · exact hrest.ne (by decide) rfl
  simp [readFloat?, readSign_append, hspecial, readDecimal?_append n hrest, hfraction, hexponent]

theorem bounded?_natCast {n : Nat} (h : n < Nat.pow 2 63) :
    bounded? (n : Int) = some (n : Int) := by
  have hpow : Int.pow 2 63 = ((Nat.pow 2 63 : Nat) : Int) := by decide
  rw [bounded?, hpow]
  generalize Nat.pow 2 63 = bound at h ⊢
  exact if_pos (by omega)

theorem readInt?_append {n : Nat} (h : n < Nat.pow 2 63) (hrest : Ends rest) :
    readInt? (Nat.toDigits 10 n ++ rest) = some ((n : Int), rest) := by
  have hvalue : natOf? 10 (Nat.toDigits 10 n) = some n :=
    (natOf?_eq_some_iff (by decide)).mpr (writes_toDigits (by decide) n)
  rw [readInt?]
  · rw [readSign_append]
    refine Option.bind_eq_some_iff.mpr ⟨_, readDecimal?_append n hrest, ?_⟩
    refine Option.bind_eq_some_iff.mpr ⟨n, hvalue, ?_⟩
    exact Option.bind_eq_some_iff.mpr ⟨n, bounded?_natCast h, rfl⟩
  · exact fun cs => toDigits_append_ne_zero n (by decide) hrest cs
  · exact fun cs => toDigits_append_ne_zero n (by decide) hrest cs
  · exact fun cs => toDigits_append_ne_zero n (by decide) hrest cs

theorem readNumber?_append {n : Nat} (h : n < Nat.pow 2 63) (hrest : Ends rest) :
    readNumber? (Nat.toDigits 10 n ++ rest) = some (.int n, rest) := by
  rw [readNumber?, afterDateTime?_append (decimal_toDigits n) hrest, readFloat?_append n hrest,
    readInt?_append h hrest]
  rfl

end

/-! ## Scalars -/

/-- A text is written between quotation marks or apostrophes. -/
theorem exists_writeText_eq (cs : List Char) :
    ∃ c ds, writeText cs = c :: ds ∧ (c = '"' ∨ c = '\'') := by
  rw [writeText]
  split_ifs
  all_goals exact ⟨_, _, rfl, by decide⟩

section

variable {rest : List Char}

theorem writeText_append_ne (cs : List Char) {c : Char} (hc : c ≠ '"' ∧ c ≠ '\'')
    (ds : List Char) : writeText cs ++ rest ≠ c :: ds := by
  obtain ⟨d, es, hes, hd⟩ := exists_writeText_eq cs
  rw [hes, List.cons_append]
  intro heq
  obtain ⟨rfl, -⟩ := List.cons.inj heq
  exact hd.elim hc.1 hc.2

theorem readScalar?_writeText (cs : List Char) (hrest : Ends rest) :
    readScalar? (writeText cs ++ rest) = some (.text (String.ofList cs), rest) := by
  have hread : readText? (writeText cs ++ rest) = some (cs, rest) := by
    refine readText?_writeText cs fun c hc => ?_
    rcases hrest c hc with rfl | rfl | rfl <;> decide
  obtain ⟨c, ds, hds, rfl | rfl⟩ := exists_writeText_eq cs
  · rw [hds, List.cons_append] at hread ⊢
    rw [readScalar?, hread]
    rfl
  · rw [hds, List.cons_append] at hread ⊢
    rw [readScalar?, hread]
    rfl

theorem readScalar?_toDigits {n : Nat} (h : n < Nat.pow 2 63) (hrest : Ends rest) :
    readScalar? (Nat.toDigits 10 n ++ rest) = some (.int n, rest) := by
  rw [readScalar?, readNumber?_append h hrest]
  · exact fun cs => toDigits_append_ne n rfl _
  · exact fun cs => toDigits_append_ne n rfl _
  · exact fun cs => toDigits_append_ne n rfl _
  · exact fun cs => toDigits_append_ne n rfl _

end

/-! ## What is written and what is read -/

mutual

/-- What is read where a value is written. -/
def asRead : Value → Value
  | .nat n => .int n
  | .list vs => .list (allAsRead vs)
  | .table es => .table (entriesAsRead es)
  | v => v

def allAsRead : List Value → List Value
  | [] => []
  | v :: vs => asRead v :: allAsRead vs

def entriesAsRead : List (String × Value) → List (String × Value)
  | [] => []
  | (key, v) :: es => (key, asRead v) :: entriesAsRead es

end

theorem allAsRead_eq_map (vs : List Value) : allAsRead vs = vs.map asRead := by
  induction vs with
  | nil => rfl
  | cons v vs ih => rw [allAsRead, ih, List.map_cons]

theorem entriesAsRead_eq_map (es : Data.Entries) :
    entriesAsRead es = es.map fun e => (e.1, asRead e.2) := by
  induction es with
  | nil => rfl
  | cons e es ih => rw [entriesAsRead, ih, List.map_cons]

/-- A value of texts, numbers and truth values, with at most so many lists in one another. -/
inductive Savable : Nat → Value → Prop
  | text {depth : Nat} (s : String) : Savable depth (.text s)
  | nat {depth n : Nat} (h : n < Nat.pow 2 63) : Savable depth (.nat n)
  | bool {depth : Nat} (b : Bool) : Savable depth (.bool b)
  | list {depth : Nat} {vs : List Value} (h : ∀ v ∈ vs, Savable depth v) :
      Savable (depth + 1) (.list vs)

theorem toList_writeValue_text (s : String) :
    (writeValue (.text s)).toList = writeText s.toList := by
  rw [writeValue, quote, String.toList_ofList]

theorem toList_writeValue_nat (n : Nat) : (writeValue (.nat n)).toList = Nat.toDigits 10 n := by
  rw [writeValue]
  exact Nat.toList_repr

/-- A character with which a value can begin. -/
def BeginsValue (c : Char) : Prop :=
  c ∉ [' ', '\t', '\n', '\r', '#', ']']

theorem Savable.exists_writeValue_eq {depth : Nat} {v : Value} (h : Savable depth v) :
    ∃ c cs, (writeValue v).toList = c :: cs ∧ BeginsValue c := by
  cases h with
  | text s =>
    obtain ⟨c, ds, hds, hc⟩ := exists_writeText_eq s.toList
    refine ⟨c, ds, by rw [toList_writeValue_text, hds], ?_⟩
    rcases hc with rfl | rfl <;> simp [BeginsValue]
  | @nat _ n h =>
    obtain ⟨d, ds, hds, hd⟩ := exists_digit_toDigits_eq n
    refine ⟨d, ds, by rw [toList_writeValue_nat, hds], fun hmem => ?_⟩
    simp only [List.mem_cons, List.not_mem_nil, or_false] at hmem
    rcases hmem with rfl | rfl | rfl | rfl | rfl | rfl <;> cases hd
  | bool b =>
    cases b with
    | false => exact ⟨'f', _, rfl, by simp [BeginsValue]⟩
    | true => exact ⟨'t', _, rfl, by simp [BeginsValue]⟩
  | @list _ vs h =>
    refine ⟨'[', ?_⟩
    match vs with
    | [] => exact ⟨_, rfl, by simp [BeginsValue]⟩
    | [v] => exact ⟨(writeValue v).toList ++ [']'], by simp [writeValue], by simp [BeginsValue]⟩
    | v :: w :: vs =>
      exact ⟨'\n' :: ((writeItems (v :: w :: vs)).toList ++ [']']), by simp [writeValue],
        by simp [BeginsValue]⟩

theorem skipBlanks_cons {c : Char} (h : BeginsValue c) (cs : List Char) :
    skipBlanks false (c :: cs) = c :: cs := by
  simp only [BeginsValue, List.mem_cons, List.not_mem_nil, or_false, not_or] at h
  obtain ⟨hspace, htab, hnewline, hreturn, hhash, -⟩ := h
  rw [skipBlanks.eq_def]
  simp only
  split
  · exact absurd rfl hnewline
  · exact absurd rfl hreturn
  · simp [hhash, isSpace, hspace, htab]

theorem skipSpaces_cons {c : Char} (h : BeginsValue c) (cs : List Char) :
    skipSpaces (c :: cs) = c :: cs := by
  simp only [BeginsValue, List.mem_cons, List.not_mem_nil, or_false, not_or] at h
  simp [skipSpaces, isSpace, h]

/-! ## Lists -/

/-- The reader of items reads a value back, if a value can end there. -/
def ReadsBack (item : List Char → Option (Value × List Char)) (v : Value) : Prop :=
  ∀ rest, Ends rest → item ((writeValue v).toList ++ rest) = some (asRead v, rest)

section

variable {item : List Char → Option (Value × List Char)} {v : Value} {cs rest : List Char}
  {depth rounds : Nat}

theorem Savable.writeValue_append_ne (hv : Savable depth v) (rest cs : List Char) :
    (writeValue v).toList ++ rest ≠ ']' :: cs := by
  obtain ⟨c, ds, hds, hc⟩ := hv.exists_writeValue_eq
  rw [hds, List.cons_append]
  intro heq
  obtain ⟨rfl, -⟩ := List.cons.inj heq
  simp [BeginsValue] at hc

theorem Savable.skipBlanks_writeValue (hv : Savable depth v) (rest : List Char) :
    skipBlanks false ((writeValue v).toList ++ rest) = (writeValue v).toList ++ rest := by
  obtain ⟨c, ds, hds, hc⟩ := hv.exists_writeValue_eq
  rw [hds, List.cons_append, skipBlanks_cons hc]

/-- An item with the closing bracket behind it. -/
theorem readItems?_last (hv : Savable depth v) (hitem : ReadsBack item v) (rounds : Nat)
    (rest : List Char) :
    readItems? item (rounds + 1) ((writeValue v).toList ++ ']' :: rest) =
      some ([asRead v], rest) := by
  rw [readItems?, hv.skipBlanks_writeValue]
  split
  · next heq => exact absurd heq (hv.writeValue_append_ne _ _)
  · rw [hitem _ (ends_cons (by decide) rest)]
    rfl

/-- An item on a line of its own, with a comma and the other items behind it. -/
theorem readItems?_line (hv : Savable depth v) (hitem : ReadsBack item v) {ws : List Value}
    {more : List Char} (hmore : readItems? item rounds more = some (ws, rest)) :
    readItems? item (rounds + 1)
        ('\n' :: ("    ".toList ++ ((writeValue v).toList ++ ',' :: more))) =
      some (asRead v :: ws, rest) := by
  have hskip :
      skipBlanks false ('\n' :: ("    ".toList ++ ((writeValue v).toList ++ ',' :: more))) =
        (writeValue v).toList ++ ',' :: more := hv.skipBlanks_writeValue _
  have hcomma : skipBlanks false (',' :: more) = ',' :: more :=
    skipBlanks_cons (by simp [BeginsValue]) more
  rw [readItems?, hskip]
  split
  · next heq => exact absurd heq (hv.writeValue_append_ne _ _)
  · rw [hitem _ (ends_cons (by decide) more)]
    simp [hcomma, hmore]

theorem readItems?_writeItems {vs : List Value} (hvs : ∀ v ∈ vs, Savable depth v)
    (hitem : ∀ v ∈ vs, ReadsBack item v) (hrounds : vs.length < rounds) (rest : List Char) :
    readItems? item rounds ('\n' :: ((writeItems vs).toList ++ ']' :: rest)) =
      some (vs.map asRead, rest) := by
  induction vs generalizing rounds with
  | nil =>
    obtain ⟨rounds, rfl⟩ : ∃ k, rounds = k + 1 := ⟨rounds - 1, by omega⟩
    rfl
  | cons v vs ih =>
    obtain ⟨hv, hvs⟩ := List.forall_mem_cons.mp hvs
    obtain ⟨hread, hreads⟩ := List.forall_mem_cons.mp hitem
    obtain ⟨rounds, rfl⟩ : ∃ k, rounds = k + 1 := ⟨rounds - 1, by omega⟩
    have hmore := ih hvs hreads (Nat.lt_of_succ_lt_succ hrounds)
    have hline := readItems?_line hv hread hmore
    simpa [writeItems] using hline

theorem length_le_writeItems (vs : List Value) : vs.length ≤ (writeItems vs).toList.length := by
  induction vs with
  | nil => exact Nat.zero_le _
  | cons v vs ih =>
    simp only [writeItems, String.toList_append, List.length_append, List.length_cons]
    have hcomma : ",\n".toList.length = 2 := by decide
    omega

end

theorem readValue?_scalar {cs : List Char} (hlist : ∀ ds, cs ≠ '[' :: ds)
    (htable : ∀ ds, cs ≠ '\x7b' :: ds) (depth : Nat) : readValue? depth cs = readScalar? cs := by
  rw [readValue?]
  · exact fun ds _ => hlist ds
  · exact fun ds _ => htable ds
  · exact fun k ds _ => hlist ds
  · exact fun k ds _ => htable ds

theorem readValue?_list {depth : Nat} {cs rest : List Char} {vs : List Value}
    (h : readItems? (readValue? depth) cs.length cs = some (vs, rest)) :
    readValue? (depth + 1) ('[' :: cs) = some (.list vs, rest) := by
  rw [readValue?, h]
  rfl

/-- A list is read back if its items are: none, one beside the brackets, or one on each line. -/
theorem readValue?_writeList {depth : Nat} {vs : List Value} (h : ∀ v ∈ vs, Savable depth v)
    (hitem : ∀ v ∈ vs, ReadsBack (readValue? depth) v) :
    ReadsBack (readValue? (depth + 1)) (.list vs) := by
  intro rest _
  rw [asRead, allAsRead_eq_map]
  match vs with
  | [] => rfl
  | [v] =>
    have hitems := readItems?_last (h v List.mem_cons_self) (hitem v List.mem_cons_self)
      ((writeValue v).toList ++ rest).length rest
    have hwrite : (writeValue (.list [v])).toList ++ rest =
        '[' :: ((writeValue v).toList ++ ']' :: rest) := by simp [writeValue]
    have hlength : ((writeValue v).toList ++ ']' :: rest).length =
        ((writeValue v).toList ++ rest).length + 1 := by
      simp only [List.length_append, List.length_cons]
      omega
    rw [hwrite]
    exact readValue?_list (hlength ▸ hitems)
  | v :: w :: vs =>
    have hwrite : (writeValue (.list (v :: w :: vs))).toList ++ rest =
        '[' :: '\n' :: ((writeItems (v :: w :: vs)).toList ++ ']' :: rest) := by
      simp [writeValue]
    rw [hwrite]
    refine readValue?_list (readItems?_writeItems h hitem ?_ rest)
    have hlength := length_le_writeItems (v :: w :: vs)
    simp only [List.length_cons, List.length_append] at hlength ⊢
    omega

/-- **Values.** A value is read back from what is written for it. -/
theorem readValue?_writeValue {depth : Nat} {v : Value} (h : Savable depth v) :
    ReadsBack (readValue? depth) v := by
  induction h with
  | @text depth s =>
    intro rest hrest
    rw [toList_writeValue_text, readValue?_scalar (writeText_append_ne _ (by decide))
      (writeText_append_ne _ (by decide)), readScalar?_writeText _ hrest, String.ofList_toList]
    rfl
  | @nat depth n h =>
    intro rest hrest
    rw [toList_writeValue_nat, readValue?_scalar (toDigits_append_ne n rfl)
      (toDigits_append_ne n rfl), readScalar?_toDigits h hrest]
    rfl
  | @bool depth b =>
    intro rest _
    cases b with
    | false => exact readValue?_scalar (by rintro _ ⟨⟩) (by rintro _ ⟨⟩) depth
    | true => exact readValue?_scalar (by rintro _ ⟨⟩) (by rintro _ ⟨⟩) depth
  | list h ih => exact readValue?_writeList h ih

end BehaviorIndex.Toml
