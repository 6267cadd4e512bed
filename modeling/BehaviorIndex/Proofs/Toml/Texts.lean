import BehaviorIndex.Proofs.Text.Numeral
import BehaviorIndex.Toml.Text

/-!
# Quoted texts are read back

**Theorem (`readText?_writeText`).** Every text is read back from the form in which it is written,
unless a mark follows that would still belong to it.

The writer chooses among four forms by what the text holds, and for each of them there is one
equation about its reader. In the basic forms an escape stands for one character
(`writeEscape_cases`), whatever follows. In the forms over several lines, the text may hold marks,
but never three in a row: so the first three in a row belong to the close, or are the last marks of
the text together with the first of the close (`closeLines`).
-/

namespace BehaviorIndex.Toml

open Text

/-! ## Escapes -/

theorem charOf?_hexCode {c : Char} (h : c.toNat < 65536) : charOf? (hexCode c.toNat) = some c := by
  have hwrites : Writes 16 (hexCode c.toNat) c.toNat := by
    have hdigit : ∀ n, IsDigit 16 (Nat.digitChar (n % 16)).toUpper (n % 16) :=
      fun n => ⟨Nat.mod_lt _ (by decide), .inr rfl⟩
    refine ⟨by simp [hexCode], [c.toNat / 4096 % 16, c.toNat / 256 % 16, c.toNat / 16 % 16,
      c.toNat % 16], ?_, ?_⟩
    · exact .cons (hdigit _) (.cons (hdigit _) (.cons (hdigit _) (.cons (hdigit _) .nil)))
    · simp only [List.reverse_cons, List.reverse_nil, List.nil_append, List.cons_append,
        Nat.ofDigits_cons, Nat.ofDigits_nil]
      omega
  have hvalid : c.toNat.isValidChar := c.valid
  rw [charOf?, (natOf?_eq_some_iff (by decide)).mpr hwrites, Option.bind_some, if_pos hvalid,
    Char.ofNat_toNat]

/-- The letters of short escapes. -/
def escapeLetters : List Char := ['b', 't', 'n', 'f', 'r', '"', '\\']

/-- An escape is a letter behind a backslash, or a code. -/
theorem writeEscape_cases (c : Char) :
    (∃ e ∈ escapeLetters, writeEscape c = ['\\', e] ∧ escapeOf? e = some c) ∨
      writeEscape c = '\\' :: 'u' :: hexCode c.toNat := by
  unfold writeEscape
  split_ifs
  case neg => exact .inr rfl
  all_goals
    subst_vars
    exact .inl ⟨_, by decide, rfl, rfl⟩

theorem exists_writeEscape_eq (c : Char) : ∃ cs, writeEscape c = '\\' :: cs := by
  obtain ⟨e, -, hwrite, -⟩ | hwrite := writeEscape_cases c
  · exact ⟨_, hwrite⟩
  · exact ⟨_, hwrite⟩

/-- A reader that knows both kinds of escapes reads the character back. -/
theorem read_writeEscape {read : List Char → Read}
    (hletter : ∀ e ∈ escapeLetters, ∀ rest, read ('\\' :: e :: rest) =
      (escapeOf? e).bind fun x => consRead x (read rest))
    (hcode : ∀ n rest, read ('\\' :: 'u' :: (hexCode n ++ rest)) =
      (charOf? (hexCode n)).bind fun x => consRead x (read rest))
    {c : Char} (h : c.toNat < 65536) (rest : List Char) :
    read (writeEscape c ++ rest) = consRead c (read rest) := by
  obtain ⟨e, he, hwrite, hescape⟩ | hwrite := writeEscape_cases c
  · rw [hwrite, List.cons_append, List.singleton_append, hletter e he, hescape, Option.bind_some]
  · rw [hwrite, List.cons_append, List.cons_append, hcode, charOf?_hexCode h, Option.bind_some]

theorem readBasic?_writeEscape {c : Char} (h : c.toNat < 65536) (rest : List Char) :
    readBasic? (writeEscape c ++ rest) = consRead c (readBasic? rest) := by
  refine read_writeEscape ?_ (fun _ _ => rfl) h rest
  simp only [escapeLetters, List.forall_mem_cons, List.not_mem_nil, false_imp_iff, implies_true,
    and_true]
  exact ⟨fun _ => rfl, fun _ => rfl, fun _ => rfl, fun _ => rfl, fun _ => rfl, fun _ => rfl,
    fun _ => rfl⟩

theorem readBasicLines?_writeEscape {c : Char} (h : c.toNat < 65536) (rest : List Char) :
    readBasicLines? false (writeEscape c ++ rest) = consRead c (readBasicLines? false rest) := by
  refine read_writeEscape ?_ (fun _ _ => rfl) h rest
  simp only [escapeLetters, List.forall_mem_cons, List.not_mem_nil, false_imp_iff, implies_true,
    and_true]
  exact ⟨fun _ => rfl, fun _ => rfl, fun _ => rfl, fun _ => rfl, fun _ => rfl, fun _ => rfl,
    fun _ => rfl⟩

/-! ## Characters that stand for themselves -/

section

variable {c : Char} {cs : List Char}

theorem readBasic?_quote : readBasic? ('"' :: cs) = some ([], cs) := by
  rw [readBasic?.eq_def]
  rfl

theorem readBasic?_cons (hc : isShown c = true) (hquote : c ≠ '"') (hslash : c ≠ '\\') :
    readBasic? (c :: cs) = consRead c (readBasic? cs) := by
  rw [readBasic?.eq_def]
  simp only [if_neg hquote, if_neg hslash, if_pos hc]

theorem readLiteral?_cons (hc : isShown c = true) (hquote : c ≠ '\'') :
    readLiteral? (c :: cs) = consRead c (readLiteral? cs) := by
  rw [readLiteral?, if_neg hquote, if_pos hc]

/-- A quotation mark belongs to the text if it is not the first of three. -/
theorem readBasicLines?_cons (hc : isShown c = true) (hslash : c ≠ '\\')
    (hquote : c = '"' → ¬ ['"', '"'] <+: cs) :
    readBasicLines? false (c :: cs) = consRead c (readBasicLines? false cs) := by
  rw [readBasicLines?.eq_def]
  simp only
  split
  · cases hc
  · cases hc
  · exact absurd (List.prefix_append _ _) (hquote rfl)
  · exact absurd rfl hslash
  · exact absurd rfl hslash
  · exact absurd rfl hslash
  · exact absurd rfl hslash
  · simp [hc]

theorem readLiteralLines?_cons (hc : isShown c = true)
    (hquote : c = '\'' → ¬ ['\'', '\''] <+: cs) :
    readLiteralLines? (c :: cs) = consRead c (readLiteralLines? cs) := by
  rw [readLiteralLines?.eq_def]
  simp only
  split
  · cases hc
  · cases hc
  · exact absurd (List.prefix_append _ _) (hquote rfl)
  · simp [hc]

theorem readBasicLines?_newline :
    readBasicLines? false ('\n' :: cs) = consRead '\n' (readBasicLines? false cs) := rfl

theorem readLiteralLines?_newline :
    readLiteralLines? ('\n' :: cs) = consRead '\n' (readLiteralLines? cs) := rfl

end

/-! ## Basic texts -/

/-- What is written for a character: an escape, or the character itself. -/
inductive WrittenChar (lines : Bool) (marks : Nat) (c : Char) (cs : List Char) : Prop
  | escape (h : writeBasicChars lines marks (c :: cs) = writeEscape c ++ writeBasicChars lines 0 cs)
      (hc : c.toNat < 65536)
  /-- Over several lines, one or two quotation marks in a row stay as they are. -/
  | mark (h : writeBasicChars lines marks (c :: cs) = '"' :: writeBasicChars lines (marks + 1) cs)
      (hc : c = '"') (hlines : lines = true) (hmarks : marks < 2)
  | newline (h : writeBasicChars lines marks (c :: cs) = '\n' :: writeBasicChars lines 0 cs)
      (hc : c = '\n') (hlines : lines = true)
  | shown (h : writeBasicChars lines marks (c :: cs) = c :: writeBasicChars lines 0 cs)
      (hc : isShown c = true) (hquote : c ≠ '"') (hslash : c ≠ '\\')

theorem writtenChar (lines : Bool) (marks : Nat) (c : Char) (cs : List Char) :
    WrittenChar lines marks c cs := by
  by_cases hquote : c = '"'
  · subst hquote
    by_cases hmarks : lines = true ∧ marks < 2
    · refine .mark ?_ rfl hmarks.1 hmarks.2
      rw [writeBasicChars, if_pos rfl, if_pos (by simpa using hmarks)]
    · refine .escape ?_ (by decide)
      rw [writeBasicChars, if_pos rfl, if_neg (by simpa using hmarks)]
  by_cases hnewline : lines = true ∧ c = '\n'
  · refine .newline ?_ hnewline.2 hnewline.1
    rw [writeBasicChars, if_neg hquote, if_pos (by simpa using hnewline), hnewline.2]
  by_cases hescape : c = '\\' ∨ c.toNat < 0x20 ∨ c.toNat = 0x7F
  · refine .escape ?_ ?_
    · rw [writeBasicChars, if_neg hquote, if_neg (by simpa using hnewline),
        if_pos (by simpa [or_assoc] using hescape)]
    · rcases hescape with rfl | hcontrol | hcontrol
      · decide
      · omega
      · omega
  · refine .shown ?_ ?_ hquote fun hslash => hescape (.inl hslash)
    · rw [writeBasicChars, if_neg hquote, if_neg (by simpa using hnewline),
        if_neg (by simpa [or_assoc] using hescape)]
    · have hshown : 0x20 ≤ c.toNat ∧ c.toNat ≠ 0x7F := by omega
      simp [isShown, hshown]

theorem consRead_some (c : Char) (cs rest : List Char) :
    consRead c (some (cs, rest)) = some (c :: cs, rest) := rfl

theorem readBasic?_writeBasicChars (marks : Nat) (cs rest : List Char) :
    readBasic? (writeBasicChars false marks cs ++ '"' :: rest) = some (cs, rest) := by
  induction cs generalizing marks with
  | nil => rw [writeBasicChars, List.nil_append, readBasic?_quote]
  | cons c cs ih =>
    cases writtenChar false marks c cs with
    | escape h hc => rw [h, List.append_assoc, readBasic?_writeEscape hc, ih, consRead_some]
    | mark h hc hlines => cases hlines
    | newline h hc hlines => cases hlines
    | shown h hc hquote hslash =>
      rw [h, List.cons_append, readBasic?_cons hc hquote hslash, ih, consRead_some]

/-- What is written for a character begins with a quotation mark only if it is one, and fewer than
two come before it. -/
theorem head?_writeBasicChars {lines : Bool} {marks : Nat} {c : Char} {cs rest : List Char}
    (h : (writeBasicChars lines marks (c :: cs) ++ rest).head? = some '"') :
    c = '"' ∧ lines = true ∧ marks < 2 := by
  cases writtenChar lines marks c cs with
  | escape hwrite hc =>
    obtain ⟨ds, hds⟩ := exists_writeEscape_eq c
    rw [hwrite, hds] at h
    cases h
  | mark hwrite hc hlines hmarks => exact ⟨hc, hlines, hmarks⟩
  | newline hwrite hc hlines =>
    rw [hwrite] at h
    cases h
  | shown hwrite hc hquote hslash =>
    rw [hwrite] at h
    exact absurd (Option.some_inj.mp h) hquote

/-! ## Texts over several lines -/

/-- The last marks of a text over several lines, up to two, are read with the close. -/
theorem closeLines_replicate {mark : Char} {k : Nat} (hk : k ≤ 2) {rest : List Char}
    (hrest : rest.head? ≠ some mark) :
    closeLines mark (List.replicate k mark ++ rest) = (List.replicate k mark, rest) := by
  match k, rest with
  | 0, [] => rfl
  | 0, [a] =>
    have ha : a ≠ mark := by simpa using hrest
    simp [closeLines, ha]
  | 0, a :: b :: rest =>
    have ha : a ≠ mark := by simpa using hrest
    simp [closeLines, ha]
  | 1, [] => simp [closeLines]
  | 1, a :: rest =>
    have ha : a ≠ mark := by simpa using hrest
    simp [closeLines, ha]
  | 2, rest => simp [closeLines, List.replicate]

section

variable {rest : List Char}

theorem readBasicLines?_close {k : Nat} (hk : k ≤ 2) (hrest : rest.head? ≠ some '"') :
    readBasicLines? false (List.replicate k '"' ++ '"' :: '"' :: '"' :: rest) =
      some (List.replicate k '"', rest) := by
  have hread : readBasicLines? false ('"' :: '"' :: '"' :: (List.replicate k '"' ++ rest)) =
      some (closeLines '"' (List.replicate k '"' ++ rest)) := by
    rw [readBasicLines?.eq_def]
    rfl
  rw [← closeLines_replicate hk hrest, ← hread]
  congr 1
  match k with
  | 0 | 1 | 2 => rfl

theorem readLiteralLines?_close {k : Nat} (hk : k ≤ 2) (hrest : rest.head? ≠ some '\'') :
    readLiteralLines? (List.replicate k '\'' ++ '\'' :: '\'' :: '\'' :: rest) =
      some (List.replicate k '\'', rest) := by
  have hread : readLiteralLines? ('\'' :: '\'' :: '\'' :: (List.replicate k '\'' ++ rest)) =
      some (closeLines '\'' (List.replicate k '\'' ++ rest)) := by
    rw [readLiteralLines?.eq_def]
    rfl
  rw [← closeLines_replicate hk hrest, ← hread]
  congr 1
  match k with
  | 0 | 1 | 2 => rfl

/-- Where two further marks follow a mark, the text is at its end: it holds at most one more. -/
theorem eq_of_marks {marks : Nat} (hmarks : 0 < marks) {cs : List Char}
    (h : ['"', '"'] <+: writeBasicChars true marks cs ++ '"' :: rest) :
    cs = [] ∨ cs = ['"'] ∧ marks = 1 := by
  have hhead : ∀ {marks : Nat} {c : Char} {cs ds : List Char},
      '"' :: ds <+: writeBasicChars true marks (c :: cs) ++ '"' :: rest →
        c = '"' ∧ marks < 2 := by
    rintro marks c cs ds ⟨tail, htail⟩
    obtain ⟨hc, -, hlt⟩ := head?_writeBasicChars (by rw [← htail]; rfl)
    exact ⟨hc, hlt⟩
  cases cs with
  | nil => exact .inl rfl
  | cons c cs =>
    obtain ⟨rfl, hlt⟩ := hhead h
    obtain rfl : marks = 1 := by omega
    cases cs with
    | nil => exact .inr ⟨rfl, rfl⟩
    | cons d cs =>
      have htail : ['"'] <+: writeBasicChars true 2 (d :: cs) ++ '"' :: rest :=
        (List.cons_prefix_cons.mp h).2
      exact absurd (hhead htail).2 (Nat.lt_irrefl 2)

/-- **Basic texts over several lines.** The induction is on the text, for any number of marks that
come directly before. -/
theorem readBasicLines?_writeBasicChars (marks : Nat) (cs : List Char)
    (hrest : rest.head? ≠ some '"') :
    readBasicLines? false (writeBasicChars true marks cs ++ '"' :: '"' :: '"' :: rest) =
      some (cs, rest) := by
  induction cs generalizing marks with
  | nil => exact readBasicLines?_close (Nat.zero_le 2) hrest
  | cons c cs ih =>
    cases writtenChar true marks c cs with
    | escape h hc => rw [h, List.append_assoc, readBasicLines?_writeEscape hc, ih, consRead_some]
    | newline h hc =>
      rw [h, List.cons_append, readBasicLines?_newline, ih, consRead_some, hc]
    | shown h hc hquote hslash =>
      rw [h, List.cons_append, readBasicLines?_cons hc hslash fun heq => absurd heq hquote, ih,
        consRead_some]
    | mark h hc hlines hmarks =>
      rw [h, List.cons_append, hc]
      by_cases hmore : ['"', '"'] <+:
          writeBasicChars true (marks + 1) cs ++ '"' :: '"' :: '"' :: rest
      · obtain rfl | ⟨rfl, hone⟩ := eq_of_marks (Nat.succ_pos marks) hmore
        · exact readBasicLines?_close (k := 1) (by decide) hrest
        · obtain rfl : marks = 0 := Nat.succ.inj hone
          exact readBasicLines?_close (k := 2) (by decide) hrest
      · rw [readBasicLines?_cons (by decide) (by decide) fun _ => hmore, ih, consRead_some]

end

section

variable {mark : Char} {cs : List Char}

theorem le_longestRun (mark : Char) (run : Nat) (cs : List Char) :
    run ≤ longestRun mark run cs := by
  induction cs generalizing run with
  | nil => exact Nat.le_refl run
  | cons c cs ih =>
    rw [longestRun]
    split
    · exact Nat.le_trans (Nat.le_succ run) (ih (run + 1))
    · exact Nat.le_max_left _ _

theorem longestRun_mono {run more : Nat} (h : run ≤ more) (mark : Char) (cs : List Char) :
    longestRun mark run cs ≤ longestRun mark more cs := by
  induction cs generalizing run more with
  | nil => exact h
  | cons c cs ih =>
    rw [longestRun, longestRun]
    split
    · exact ih (Nat.succ_le_succ h)
    · omega

/-- The text behind a character has no longer rows. -/
theorem longestRun_le_cons (mark c : Char) (cs : List Char) :
    longestRun mark 0 cs ≤ longestRun mark 0 (c :: cs) := by
  rw [longestRun]
  split
  · exact longestRun_mono (Nat.zero_le 1) mark cs
  · exact Nat.le_max_right _ _

theorem notMem_of_longestRun (h : longestRun mark 0 cs = 0) : mark ∉ cs := by
  induction cs with
  | nil => simp
  | cons c cs ih =>
    have htail := longestRun_le_cons mark c cs
    rw [List.mem_cons, not_or]
    refine ⟨?_, ih (by omega)⟩
    rintro rfl
    rw [longestRun, if_pos rfl] at h
    exact absurd (h ▸ le_longestRun mark (0 + 1) cs) (by decide)

/-- Two further marks behind one, in a text without three in a row, are those of its close. -/
theorem eq_of_longestRun {rest : List Char} (h : longestRun mark 0 (mark :: cs) ≤ 2)
    (hmore : [mark, mark] <+: cs ++ rest) : cs = [] ∨ cs = [mark] := by
  match cs with
  | [] => exact .inl rfl
  | [d] =>
    obtain ⟨rfl, -⟩ := List.cons_prefix_cons.mp hmore
    exact .inr rfl
  | d :: e :: cs =>
    obtain ⟨rfl, htail⟩ := List.cons_prefix_cons.mp hmore
    obtain ⟨rfl, -⟩ := List.cons_prefix_cons.mp htail
    rw [longestRun, if_pos rfl, longestRun, if_pos rfl, longestRun, if_pos rfl] at h
    have := le_longestRun mark (0 + 1 + 1 + 1) cs
    omega

end

/-- **Literal texts over several lines.** -/
theorem readLiteralLines?_append {cs rest : List Char} (hrun : longestRun '\'' 0 cs ≤ 2)
    (hshown : ∀ c ∈ cs, c = '\n' ∨ isShown c = true) (hrest : rest.head? ≠ some '\'') :
    readLiteralLines? (cs ++ '\'' :: '\'' :: '\'' :: rest) = some (cs, rest) := by
  induction cs with
  | nil => exact readLiteralLines?_close (Nat.zero_le 2) hrest
  | cons c cs ih =>
    obtain ⟨hc, hcs⟩ := List.forall_mem_cons.mp hshown
    have htail := ih (Nat.le_trans (longestRun_le_cons _ c cs) hrun) hcs
    rw [List.cons_append]
    rcases hc with rfl | hc
    · rw [readLiteralLines?_newline, htail, consRead_some]
    · by_cases hmore : c = '\'' ∧ ['\'', '\''] <+: cs ++ '\'' :: '\'' :: '\'' :: rest
      · obtain ⟨rfl, hmore⟩ := hmore
        obtain rfl | rfl := eq_of_longestRun hrun hmore
        · exact readLiteralLines?_close (k := 1) (by decide) hrest
        · exact readLiteralLines?_close (k := 2) (by decide) hrest
      · rw [readLiteralLines?_cons hc fun hquote hpre => hmore ⟨hquote, hpre⟩, htail,
          consRead_some]

theorem readLiteral?_append {cs rest : List Char} (hquote : '\'' ∉ cs)
    (hshown : ∀ c ∈ cs, isShown c = true) :
    readLiteral? (cs ++ '\'' :: rest) = some (cs, rest) := by
  induction cs with
  | nil => rfl
  | cons c cs ih =>
    obtain ⟨hc, hcs⟩ := List.forall_mem_cons.mp hshown
    rw [List.mem_cons, not_or] at hquote
    rw [List.cons_append, readLiteral?_cons hc (Ne.symm hquote.1), ih hquote.2 hcs, consRead_some]

/-! ## The four forms -/

section

variable {cs rest : List Char}

theorem readText?_basic (cs : List Char) (hrest : rest.head? ≠ some '"') :
    readText? ('"' :: (writeBasicChars false 0 cs ++ '"' :: rest)) = some (cs, rest) := by
  -- The first two marks are not the start of the other form.
  have htwo : ∀ ds, writeBasicChars false 0 cs ++ '"' :: rest ≠ '"' :: '"' :: ds := by
    intro ds heq
    cases cs with
    | nil =>
      obtain ⟨-, rfl⟩ := List.cons.inj heq
      exact hrest rfl
    | cons c cs =>
      have hlines := (head?_writeBasicChars (by rw [heq]; rfl)).2.1
      cases hlines
  rw [readText?, readBasic?_writeBasicChars]
  exact fun ds heq => htwo ds heq

theorem readText?_literal (hne : cs ≠ []) (hquote : '\'' ∉ cs)
    (hshown : ∀ c ∈ cs, isShown c = true) :
    readText? ('\'' :: (cs ++ '\'' :: rest)) = some (cs, rest) := by
  obtain ⟨c, cs, rfl⟩ := List.exists_cons_of_ne_nil hne
  rw [readText?, readLiteral?_append hquote hshown]
  rintro ds heq
  obtain ⟨rfl, -⟩ := List.cons.inj heq
  exact hquote List.mem_cons_self

theorem dropLineEnd_of_head? (h : ∀ c ∈ cs.head?, c ≠ '\n' ∧ c ≠ '\r') : dropLineEnd cs = cs := by
  cases cs with
  | nil => rfl
  | cons c cs =>
    obtain ⟨hnewline, hreturn⟩ := h c rfl
    rw [dropLineEnd]
    · rintro ds heq
      exact absurd (List.cons.inj heq).1 hnewline
    · rintro ds heq
      exact absurd (List.cons.inj heq).1 hreturn

/-- A line end in front of a text with several lines is dropped, and a text of one line begins with
none. -/
theorem dropLineEnd_start {lines : Bool}
    (h : lines = false → ∀ c ∈ cs.head?, c ≠ '\n' ∧ c ≠ '\r') :
    dropLineEnd ((if lines then ['\n'] else []) ++ cs) = cs := by
  cases lines with
  | false => exact dropLineEnd_of_head? (h rfl)
  | true => rfl

theorem ne_lineEnd_of_isShown {c : Char} (h : isShown c = true) : c ≠ '\n' ∧ c ≠ '\r' := by
  constructor <;> rintro rfl <;> exact absurd h (by decide)

/-- What is written for a text without line ends does not begin with one. -/
theorem head?_writeBasicChars_ne {marks : Nat} (h : '\n' ∉ cs) :
    ∀ c ∈ (writeBasicChars true marks cs ++ '"' :: rest).head?, c ≠ '\n' ∧ c ≠ '\r' := by
  intro d hd
  cases cs with
  | nil =>
    cases hd
    decide
  | cons c cs =>
    cases writtenChar true marks c cs with
    | escape hwrite hc =>
      obtain ⟨ds, hds⟩ := exists_writeEscape_eq c
      rw [hwrite, hds] at hd
      cases hd
      decide
    | mark hwrite hc hlines hmarks =>
      rw [hwrite] at hd
      cases hd
      decide
    | newline hwrite hc hlines => exact absurd (hc ▸ List.mem_cons_self) h
    | shown hwrite hc hquote hslash =>
      rw [hwrite] at hd
      cases hd
      exact ne_lineEnd_of_isShown hc

theorem readText?_basicLines (cs : List Char) (hrest : rest.head? ≠ some '"') :
    readText? ('"' :: '"' :: '"' :: ((if cs.contains '\n' then ['\n'] else []) ++
      (writeBasicChars true 0 cs ++ '"' :: '"' :: '"' :: rest))) = some (cs, rest) := by
  rw [readText?, dropLineEnd_start, readBasicLines?_writeBasicChars 0 cs hrest]
  intro hlines
  exact head?_writeBasicChars_ne (by simpa using hlines)

theorem readText?_literalLines (hrun : longestRun '\'' 0 cs ≤ 2)
    (hshown : ∀ c ∈ cs, c = '\n' ∨ isShown c = true) (hrest : rest.head? ≠ some '\'') :
    readText? ('\'' :: '\'' :: '\'' :: ((if cs.contains '\n' then ['\n'] else []) ++
      (cs ++ '\'' :: '\'' :: '\'' :: rest))) = some (cs, rest) := by
  rw [readText?, dropLineEnd_start, readLiteralLines?_append hrun hshown hrest]
  intro hlines c hc
  cases cs with
  | nil =>
    cases hc
    decide
  | cons d cs =>
    cases hc
    have hd : c ≠ '\n' := by
      rintro rfl
      simp at hlines
    exact ne_lineEnd_of_isShown ((hshown c List.mem_cons_self).resolve_left hd)

/-- A text in which nothing needs an escape. -/
theorem isShown_of_not_needsEscape (h : cs.any needsEscape = false) :
    ∀ c ∈ cs, c = '\n' ∨ isShown c = true := by
  intro c hc
  have hescape := List.any_eq_false.mp h c hc
  by_cases hnewline : c = '\n'
  · exact .inl hnewline
  · simp [needsEscape, hnewline] at hescape
    exact .inr (by simp [isShown, hescape])

/-- **Texts.** Every text is read back from the form in which it is written. -/
theorem readText?_writeText (cs : List Char) {rest : List Char}
    (hrest : ∀ c ∈ rest.head?, c ≠ '"' ∧ c ≠ '\'') :
    readText? (writeText cs ++ rest) = some (cs, rest) := by
  have hdouble : rest.head? ≠ some '"' := fun h => (hrest _ h).1 rfl
  have hsingle : rest.head? ≠ some '\'' := fun h => (hrest _ h).2 rfl
  have hbasic := readText?_basic cs hdouble
  have hbasicLines := readText?_basicLines cs hdouble
  rw [writeText]
  split
  · simpa using hbasic
  split
  · next hplain hliteral =>
    simp only [Bool.and_eq_true, Bool.not_eq_true', decide_eq_true_eq] at hliteral
    obtain ⟨⟨hescapes, hlines⟩, hquotes⟩ := hliteral
    -- The empty text needs no apostrophes.
    have hne : cs ≠ [] := by
      rintro rfl
      simp [longestRun] at hplain
    have hshown : ∀ c ∈ cs, isShown c = true := fun c hc =>
      (isShown_of_not_needsEscape hescapes c hc).resolve_left
        (ne_of_mem_of_not_mem hc (by simpa using hlines))
    simpa using readText?_literal hne (notMem_of_longestRun hquotes) hshown
  split
  · simpa using hbasicLines
  split
  · next hliteral =>
    simp only [Bool.and_eq_true, Bool.not_eq_true', decide_eq_true_eq] at hliteral
    obtain ⟨hescapes, hquotes⟩ := hliteral
    simpa using readText?_literalLines hquotes (isShown_of_not_needsEscape hescapes) hsingle
  split
  · next hlines =>
    rw [if_pos hlines] at hbasicLines
    simpa using hbasicLines
  · simpa using hbasic

end

end BehaviorIndex.Toml
