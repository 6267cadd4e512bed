import BehaviorIndex.Proofs.Markup.Depth
import BehaviorIndex.Proofs.Text.Search

/-!
# Counting open tags by eye

`nestsBeyond` counts tags in a text that need not be a document. It looks for the next `<`, and from
what stands behind that it decides where to look on. So it must not lose its place: a `<` or `>` in
a value, a comment or a section is not a tag, and an end tag too many is not a level below zero.

**The texts** (`Lexeme`). Any sequence of tags, comments, sections, instructions, declarations and
plain text. The tags need not match, and a value may hold anything but its own quote. Each lexeme
carries the proof that it does not end too early.

**Theorem (`nestsBeyond_lexemes`).** The nesting of such a text goes beyond the limit exactly if the
number of open tags does behind some of its lexemes. And on any text at all, the count is over after
at most one round more than there are `<` in it.

One round is a function of its own (`round`). A lexeme takes one round and leaves what follows it
(`Lexeme.nestsBeyond_append`); the sequence is an induction over that.
-/

namespace BehaviorIndex.Markup

open Text

/-! ## Rounds -/

/-- What a round of the count comes to. -/
inductive Round where
  | answer (b : Bool)
  /-- The number of open tags, and the text that is left. -/
  | next (depth : Nat) (rest : List Char)

/-- The count up to the next tag, or past the next passage that is passed over. -/
def round (limit depth : Nat) (cs : List Char) : Round :=
  match cs.dropWhile (· != '<') with
  | [] => .answer false
  | lt :: rest =>
    match terminator? (lt :: rest) with
    | some t => .next depth (skipPast t (lt :: rest))
    | none =>
      let tag := (splitTag none rest).1
      let after := (splitTag none rest).2
      if tag.head? == some '/' then .next (depth - 1) after
      else if tag.getLast? == some '/' then .next depth after
      else if limit ≤ depth then .answer true
      else .next (depth + 1) after

/-- The answer, if the count is over within so many rounds. -/
def scanFor (limit : Nat) : (rounds : Nat) → (depth : Nat) → List Char → Option Bool
  | 0, _, _ => none
  | rounds + 1, depth, cs =>
    match round limit depth cs with
    | .answer b => some b
    | .next depth rest => scanFor limit rounds depth rest

/-- The answer that a round leads to. -/
def Round.result (limit : Nat) : Round → Bool
  | .answer b => b
  | .next depth rest => nestsBeyond limit depth rest

theorem nestsBeyond_eq_result (limit depth : Nat) (cs : List Char) :
    nestsBeyond limit depth cs = (round limit depth cs).result limit := by
  rw [nestsBeyond, round]
  split
  · next hnil =>
    simp only [hnil]
    rfl
  · next lt rest hcons =>
    simp only [hcons]
    split
    · next ht =>
      simp only [ht]
      rfl
    · next ht =>
      simp only [ht, apply_ite (Round.result limit)]
      rfl

section

variable {limit depth depth' : Nat} {cs rest : List Char}

theorem suffix_splitTag (quote : Option Char) (cs : List Char) : (splitTag quote cs).2 <:+ cs := by
  induction cs generalizing quote with
  | nil => exact List.suffix_refl _
  | cons c cs ih =>
    cases quote with
    | none =>
      rw [splitTag]
      split
      · exact List.suffix_cons c cs
      · exact (ih _).trans (List.suffix_cons c cs)
    | some q => exact (ih _).trans (List.suffix_cons c cs)

theorem suffix_skipPast {pat : List Char} (hpat : pat ≠ []) (c : Char) (cs : List Char) :
    skipPast pat (c :: cs) <:+ cs := by
  rw [skipPast]
  split
  · next before rest h =>
    obtain ⟨d, pat, rfl⟩ := List.exists_cons_of_ne_nil hpat
    have hcs : c :: cs = before ++ rest := breakOn_eq_append h
    cases before with
    | nil =>
      obtain rfl : c :: cs = rest := hcs
      rw [List.length_cons, List.drop_succ_cons]
      exact List.drop_suffix _ _
    | cons e before =>
      obtain ⟨-, rfl⟩ := List.cons.inj hcs
      exact (List.drop_suffix _ _).trans (List.suffix_append _ _)
  · exact List.nil_suffix

/-- A round that does not answer passes at least one `<`. -/
theorem count_lt_of_next (h : round limit depth cs = .next depth' rest) :
    rest.count '<' < cs.count '<' := by
  rw [round] at h
  split at h
  · cases h
  · next lt behind hcons =>
    obtain rfl : lt = '<' := by
      have hhead := List.head_dropWhile_not (· != '<') (l := cs) (by simp [hcons])
      simpa [hcons] using hhead
    have hle : behind.count '<' + 1 ≤ cs.count '<' := by
      have hsub := (List.dropWhile_suffix (l := cs) (· != '<')).sublist.count_le '<'
      rwa [hcons, List.count_cons_self] at hsub
    have hrest : rest <:+ behind := by
      split at h
      · next t ht =>
        cases h
        exact suffix_skipPast (ne_nil_of_terminator? ht) _ _
      · simp only at h
        have hsplit := suffix_splitTag none behind
        split at h
        · cases h
          exact hsplit
        · split at h
          · cases h
            exact hsplit
          · split at h
            · cases h
            · cases h
              exact hsplit
    have := hrest.sublist.count_le '<'
    omega

end

/-- **The count ends.** On every text, it is over after at most one round more than there are `<`
in the text. -/
theorem scanFor_count (limit : Nat) {rounds : Nat} (depth : Nat) (cs : List Char)
    (h : cs.count '<' < rounds) :
    scanFor limit rounds depth cs = some (nestsBeyond limit depth cs) := by
  induction rounds generalizing depth cs with
  | zero => exact absurd h (Nat.not_lt_zero _)
  | succ rounds ih =>
    rw [scanFor, nestsBeyond_eq_result]
    cases hround : round limit depth cs with
    | answer b => rfl
    | next depth' rest =>
      have hlt := count_lt_of_next hround
      exact ih depth' rest (by omega)

/-! ## Lexemes -/

/-- An attribute in a tag that is not read: its value may hold anything but its own quote. -/
structure Assignment where
  lead : Space
  name : String
  /-- The space before the equals sign. -/
  before : Space
  /-- The space behind it. -/
  behind : Space
  quote : Char
  value : List Char
  isName : IsTagName name
  isQuote : quote = '"' ∨ quote = '\''
  inside : quote ∉ value

/-- What stands between the brackets of a start tag or an empty-element tag, a final slash apart. -/
structure TagBody where
  name : String
  assignments : List Assignment
  trail : Space
  isName : IsTagName name

def Assignment.chars (a : Assignment) : List Char :=
  a.lead.chars ++ (a.name.toList ++ (a.before.chars ++ '=' :: (a.behind.chars ++
    a.quote :: (a.value ++ [a.quote]))))

def TagBody.chars (t : TagBody) : List Char :=
  t.name.toList ++ (t.assignments.flatMap Assignment.chars ++ t.trail.chars)

inductive Lexeme where
  | startTag (t : TagBody)
  | endTag (name : String) (trail : Space) (isName : IsTagName name)
  | emptyTag (t : TagBody)
  /-- A comment is closed by the first `-->` behind its `<!`. -/
  | comment (body : List Char) (inside : ¬ ['-', '-', '>'] <:+: body)
      (start : ¬ ['>'] <+: body ∧ ¬ ['-', '>'] <+: body)
  /-- A section of character data. -/
  | characterData (content : List Char) (inside : ¬ [']', ']', '>'] <:+: content)
  /-- What stands between `<?` and the first `>`, the question mark before that included. -/
  | instruction (body : List Char) (inside : '>' ∉ body)
  /-- What stands between `<!` and the first `>`, unless it begins a comment or a section. -/
  | declaration (body : List Char) (inside : '>' ∉ body)
      (start : ¬ ['-', '-'] <+: body ∧ ¬ ['[', 'C', 'D', 'A', 'T', 'A', '['] <+: body)
  | plain (text : List Char) (inside : '<' ∉ text)

namespace Lexeme

def chars : Lexeme → List Char
  | startTag t => '<' :: (t.chars ++ ['>'])
  | endTag name trail _ => '<' :: '/' :: (name.toList ++ (trail.chars ++ ['>']))
  | emptyTag t => '<' :: (t.chars ++ ['/', '>'])
  | comment body _ _ => '<' :: '!' :: '-' :: '-' :: (body ++ ['-', '-', '>'])
  | characterData content _ =>
    ['<', '!', '[', 'C', 'D', 'A', 'T', 'A', '['] ++ (content ++ [']', ']', '>'])
  | instruction body _ => '<' :: '?' :: (body ++ ['>'])
  | declaration body _ _ => '<' :: '!' :: (body ++ ['>'])
  | plain text _ => text

/-- The number of open tags behind a lexeme, if `depth` are open before it. -/
def count (depth : Nat) : Lexeme → Nat
  | startTag _ => depth + 1
  | endTag _ _ _ => depth - 1
  | _ => depth

end Lexeme

/-- The number of open tags behind some lexemes. -/
def openTags (ls : List Lexeme) : Nat := ls.foldl Lexeme.count 0

/-! ## Where a tag ends -/

/-- Every quote in the text is closed again, and outside of quotes there is no `>`. -/
inductive Closed : List Char → Prop
  | nil : Closed []
  | cons {c : Char} {cs : List Char} (hc : c ≠ '>' ∧ c ≠ '"' ∧ c ≠ '\'') (h : Closed cs) :
      Closed (c :: cs)
  | quoted {q : Char} {value cs : List Char} (hq : q = '"' ∨ q = '\'') (hvalue : q ∉ value)
      (h : Closed cs) : Closed (q :: (value ++ q :: cs))

namespace Closed

variable {cs ds : List Char}

theorem of_forall (h : ∀ c ∈ cs, c ≠ '>' ∧ c ≠ '"' ∧ c ≠ '\'') : Closed cs := by
  induction cs with
  | nil => exact .nil
  | cons c cs ih =>
    obtain ⟨hc, hcs⟩ := List.forall_mem_cons.mp h
    exact .cons hc (ih hcs)

theorem append (h : Closed cs) (h' : Closed ds) : Closed (cs ++ ds) := by
  induction h with
  | nil => exact h'
  | cons hc _ ih => exact .cons hc ih
  | quoted hq hvalue _ ih =>
    rw [List.cons_append, List.append_assoc, List.cons_append]
    exact .quoted hq hvalue ih

theorem splitTag_append (h : Closed cs) (rest : List Char) :
    splitTag none (cs ++ '>' :: rest) = (cs, rest) := by
  induction h with
  | nil => rfl
  | @cons c cs hc _ ih =>
    have hchar : ∀ d ∈ [c], d ≠ '>' ∧ d ≠ '"' ∧ d ≠ '\'' := by simpa using hc
    have hrun := Markup.splitTag_append hchar (cs ++ '>' :: rest)
    rwa [ih] at hrun
  | @quoted q value cs hq hvalue _ ih =>
    have hquote : (q == '"' || q == '\'') = true := by simpa using hq
    have hne : (q == '>') = false := by rcases hq with rfl | rfl <;> decide
    have hinner := splitTag_quoted (fun c hc => ne_of_mem_of_not_mem hc hvalue) (cs ++ '>' :: rest)
    rw [List.cons_append, List.append_assoc, List.cons_append, splitTag]
    simp only [hne, hquote, Bool.false_eq_true, if_false, if_true, hinner, ih]

end Closed

theorem Space.closed (s : Space) : Closed s.chars :=
  .of_forall fun c hc => ne_of_isSpace (s.spaces c hc)

theorem IsTagName.closed {tag : String} (h : IsTagName tag) : Closed tag.toList :=
  .of_forall fun c hc => ne_of_isNameChar (h.chars c hc)

theorem Assignment.closed (a : Assignment) : Closed a.chars :=
  a.lead.closed.append (a.isName.closed.append (a.before.closed.append
    (.cons (by decide) (a.behind.closed.append (.quoted a.isQuote a.inside .nil)))))

theorem Assignment.getLast?_ne_slash (a : Assignment) : a.chars.getLast? ≠ some '/' := by
  have hlast : a.chars.getLast? = some a.quote := by
    simp only [chars, ← List.cons_append, ← List.append_assoc]
    exact List.getLast?_concat
  rw [hlast]
  rcases a.isQuote with h | h <;> rw [h] <;> decide

namespace TagBody

variable (t : TagBody)

theorem closed : Closed t.chars := by
  refine t.isName.closed.append (.append ?_ t.trail.closed)
  induction t.assignments with
  | nil => exact .nil
  | cons a assignments ih => exact a.closed.append ih

theorem getLast?_ne_slash : t.chars.getLast? ≠ some '/' := by
  refine getLast?_append_ne_slash t.isName.getLast?_ne_slash
    (getLast?_append_ne_slash ?_ t.trail.getLast?_ne_slash)
  induction t.assignments with
  | nil => simp
  | cons a assignments ih => exact getLast?_append_ne_slash a.getLast?_ne_slash ih

theorem exists_chars_eq : ∃ c cs, isNameChar c = true ∧ t.chars = c :: cs := by
  obtain ⟨c, cs, hcs⟩ := List.exists_cons_of_ne_nil t.isName.nonempty
  have hc : isNameChar c = true := t.isName.chars c (hcs ▸ List.mem_cons_self)
  exact ⟨c, _, hc, by rw [chars, hcs, List.cons_append]⟩

theorem terminator?_append (rest : List Char) : terminator? ('<' :: (t.chars ++ rest)) = none := by
  obtain ⟨c, cs, hc, hchars⟩ := t.exists_chars_eq
  rw [hchars]
  refine terminator?_eq_none ?_ ?_ (cs ++ rest) <;> rintro rfl <;> exact absurd hc (by decide)

theorem head?_append_ne_slash (rest : List Char) : (t.chars ++ rest).head? ≠ some '/' := by
  obtain ⟨c, cs, hc, hchars⟩ := t.exists_chars_eq
  rw [hchars]
  rintro heq
  obtain rfl := Option.some_inj.mp heq
  exact absurd hc (by decide)

end TagBody

/-! ## Where a passage ends -/

section

variable {pat body rest : List Char}

theorem skipPast_of_prefix (h : pat <+: rest) : skipPast pat rest = rest.drop pat.length := by
  have hpre := List.isPrefixOf_iff_prefix.mpr h
  cases rest with
  | nil =>
    rw [List.prefix_nil.mp h]
    rfl
  | cons c rest => simp [skipPast, breakOn, hpre]

theorem skipPast_cons {c : Char} {cs : List Char} (h : ¬ pat <+: c :: cs) :
    skipPast pat (c :: cs) = skipPast pat cs := by
  have hpre : ¬ pat.isPrefixOf (c :: cs) = true := fun hp => h (List.isPrefixOf_iff_prefix.mp hp)
  rw [skipPast, breakOn, if_neg hpre, skipPast]
  cases breakOn pat cs with
  | none => rfl
  | some split => rfl

/-- A mark that does not occur in the body is first found behind it. -/
theorem skipPast_singleton {c : Char} (h : c ∉ body) : skipPast [c] (body ++ c :: rest) = rest := by
  induction body with
  | nil => exact skipPast_of_prefix (List.prefix_append [c] rest)
  | cons d body ih =>
    rw [List.mem_cons, not_or] at h
    rw [List.cons_append, skipPast_cons, ih h.2]
    simp [List.cons_prefix_cons, h.1]

/-- The same for a mark of three characters, the first two alike: it cannot begin in the body and
end behind it. -/
theorem skipPast_pair {a b : Char} (hne : a ≠ b) (h : ¬ [a, a, b] <:+: body) :
    skipPast [a, a, b] (body ++ a :: a :: b :: rest) = rest := by
  induction body with
  | nil => exact skipPast_of_prefix (List.prefix_append [a, a, b] rest)
  | cons c body ih =>
    rw [List.infix_cons_iff, not_or] at h
    rw [List.cons_append, skipPast_cons, ih h.2]
    intro hpre
    match body with
    | [] => simp [List.cons_prefix_cons, hne.symm] at hpre
    | [d] => simp [List.cons_prefix_cons, hne.symm] at hpre
    | d :: e :: body =>
      refine h.1 ?_
      simpa [List.cons_prefix_cons] using hpre

/-- What begins a passage is told before its `>`. -/
theorem prefix_of_prefix_append (hpat : '>' ∉ pat) (h : pat <+: body ++ '>' :: rest) :
    pat <+: body := by
  obtain hpre | ⟨tail, rfl⟩ := List.prefix_or_prefix_of_prefix h (List.prefix_append body _)
  · exact hpre
  · cases tail with
    | nil => simp
    | cons c tail =>
      have hc := (List.prefix_append_right_inj body).mp h
      obtain ⟨rfl, -⟩ := List.cons_prefix_cons.mp hc
      simp at hpat

theorem terminator?_declaration
    (start : ¬ ['-', '-'] <+: body ∧ ¬ ['[', 'C', 'D', 'A', 'T', 'A', '['] <+: body) :
    terminator? ('<' :: '!' :: (body ++ '>' :: rest)) = some ['>'] := by
  have hcomment : ¬ ['-', '-'] <+: body ++ '>' :: rest :=
    fun hpre => start.1 (prefix_of_prefix_append (by decide) hpre)
  have hsection : ¬ ['[', 'C', 'D', 'A', 'T', 'A', '['] <+: body ++ '>' :: rest :=
    fun hpre => start.2 (prefix_of_prefix_append (by decide) hpre)
  rw [← List.isPrefixOf_iff_prefix] at hcomment hsection
  simp only [terminator?]
  rw [if_neg, if_neg, if_pos]
  · rfl
  · exact hsection
  · exact hcomment

/-- A passage that is passed over counts for nothing. -/
theorem nestsBeyond_of_passage {limit depth : Nat} (h : terminator? ('<' :: body) = some pat) :
    nestsBeyond limit depth ('<' :: body) =
      nestsBeyond limit depth (skipPast pat ('<' :: body)) := by
  have hround : round limit depth ('<' :: body) = .next depth (skipPast pat ('<' :: body)) := by
    rw [round]
    simp only [List.dropWhile_cons, bne_self_eq_false, Bool.false_eq_true, if_false, h]
  rw [nestsBeyond_eq_result, hround, Round.result]

end

/-! ## One lexeme -/

namespace Lexeme

/-- The count goes on behind a lexeme, with the tags that are open then. -/
def Passed (l : Lexeme) : Prop :=
  ∀ (limit depth : Nat) (rest : List Char), depth ≤ limit →
    nestsBeyond limit depth (l.chars ++ rest) =
      (decide (limit < l.count depth) || nestsBeyond limit (l.count depth) rest)

/-- A lexeme that leaves the number of open tags as it is. -/
theorem passed_of_count {l : Lexeme} (hcount : ∀ depth, l.count depth = depth)
    (h : ∀ limit depth rest,
      nestsBeyond limit depth (l.chars ++ rest) = nestsBeyond limit depth rest) : l.Passed := by
  intro limit depth rest hdepth
  rw [hcount, decide_eq_false (Nat.not_lt.mpr hdepth), Bool.false_or, h]

theorem passed_startTag (t : TagBody) : (startTag t).Passed := by
  intro limit depth rest _
  have hchars : (startTag t).chars ++ rest = '<' :: (t.chars ++ '>' :: rest) := by simp [chars]
  rw [hchars, nestsBeyond_of_tag rfl (t.terminator?_append _), t.closed.splitTag_append,
    if_neg, if_neg, count]
  · by_cases hlimit : limit ≤ depth
    · rw [if_pos hlimit, decide_eq_true (Nat.lt_succ_of_le hlimit), Bool.true_or]
    · rw [if_neg hlimit, decide_eq_false (by omega), Bool.false_or]
  · simpa using t.getLast?_ne_slash
  · simpa using t.head?_append_ne_slash []

theorem passed_endTag (name : String) (trail : Space) (isName : IsTagName name) :
    (endTag name trail isName).Passed := by
  intro limit depth rest hdepth
  have hclosed : Closed ('/' :: (name.toList ++ trail.chars)) :=
    .cons (by decide) (isName.closed.append trail.closed)
  have hchars : (endTag name trail isName).chars ++ rest =
      '<' :: ('/' :: (name.toList ++ trail.chars) ++ '>' :: rest) := by simp [chars]
  have hterminator : terminator? ('<' :: ('/' :: (name.toList ++ trail.chars) ++ '>' :: rest)) =
      none := terminator?_eq_none (by decide) (by decide) _
  rw [hchars, nestsBeyond_of_tag rfl hterminator, hclosed.splitTag_append, if_pos (by simp), count,
    decide_eq_false (by omega), Bool.false_or]

theorem passed_emptyTag (t : TagBody) : (emptyTag t).Passed := by
  refine passed_of_count (fun _ => rfl) fun limit depth rest => ?_
  have hclosed : Closed (t.chars ++ ['/']) := t.closed.append (.cons (by decide) .nil)
  have hchars : (emptyTag t).chars ++ rest = '<' :: (t.chars ++ ['/'] ++ '>' :: rest) := by
    simp [chars]
  rw [hchars, nestsBeyond_of_tag rfl, hclosed.splitTag_append, if_neg, if_pos]
  · simp
  · simpa using t.head?_append_ne_slash ['/']
  · rw [List.append_assoc]
    exact t.terminator?_append _

theorem passed_comment {body : List Char} (inside : ¬ ['-', '-', '>'] <:+: body)
    (start : ¬ ['>'] <+: body ∧ ¬ ['-', '>'] <+: body) : (comment body inside start).Passed := by
  refine passed_of_count (fun _ => rfl) fun limit depth rest => ?_
  -- The closing mark is not found in the opening one, either.
  have hinside : ¬ ['-', '-', '>'] <:+: '<' :: '!' :: '-' :: '-' :: body := by
    simpa [List.infix_cons_iff, List.cons_prefix_cons, inside] using start
  have hchars : (comment body inside start).chars ++ rest =
      '<' :: '!' :: '-' :: '-' :: (body ++ '-' :: '-' :: '>' :: rest) := by simp [chars]
  rw [hchars, nestsBeyond_of_passage (by rfl)]
  exact congrArg _ (skipPast_pair (by decide) hinside)

theorem passed_characterData {content : List Char} (inside : ¬ [']', ']', '>'] <:+: content) :
    (characterData content inside).Passed := by
  refine passed_of_count (fun _ => rfl) fun limit depth rest => ?_
  have hinside : ¬ [']', ']', '>'] <:+:
      ['<', '!', '[', 'C', 'D', 'A', 'T', 'A', '['] ++ content := by
    simpa [List.infix_cons_iff, List.cons_prefix_cons] using inside
  have hchars : (characterData content inside).chars ++ rest =
      ['<', '!', '[', 'C', 'D', 'A', 'T', 'A', '['] ++ content ++ ']' :: ']' :: '>' :: rest := by
    simp [chars]
  rw [hchars, List.cons_append, List.cons_append, nestsBeyond_of_passage (by rfl)]
  exact congrArg _ (skipPast_pair (by decide) hinside)

theorem passed_instruction {body : List Char} (inside : '>' ∉ body) :
    (instruction body inside).Passed := by
  refine passed_of_count (fun _ => rfl) fun limit depth rest => ?_
  have hchars : (instruction body inside).chars ++ rest =
      '<' :: '?' :: (body ++ '>' :: rest) := by simp [chars]
  rw [hchars, nestsBeyond_of_passage (by rfl)]
  have hinside : '>' ∉ '<' :: '?' :: body := by simpa using inside
  exact congrArg _ (skipPast_singleton hinside)

theorem passed_declaration {body : List Char} (inside : '>' ∉ body)
    (start : ¬ ['-', '-'] <+: body ∧ ¬ ['[', 'C', 'D', 'A', 'T', 'A', '['] <+: body) :
    (declaration body inside start).Passed := by
  refine passed_of_count (fun _ => rfl) fun limit depth rest => ?_
  have hchars : (declaration body inside start).chars ++ rest =
      '<' :: '!' :: (body ++ '>' :: rest) := by simp [chars]
  rw [hchars, nestsBeyond_of_passage (terminator?_declaration start)]
  have hinside : '>' ∉ '<' :: '!' :: body := by simpa using inside
  exact congrArg _ (skipPast_singleton hinside)

theorem passed_plain {text : List Char} (inside : '<' ∉ text) : (plain text inside).Passed := by
  refine passed_of_count (fun _ => rfl) fun limit depth rest => nestsBeyond_congr ?_
  exact List.dropWhile_append_of_pos fun c hc => by simpa using ne_of_mem_of_not_mem hc inside

/-- **One lexeme.** Whatever follows, the count goes on right behind it. -/
theorem passed (l : Lexeme) : l.Passed := by
  cases l with
  | startTag t => exact passed_startTag t
  | endTag name trail isName => exact passed_endTag name trail isName
  | emptyTag t => exact passed_emptyTag t
  | comment body inside start => exact passed_comment inside start
  | characterData content inside => exact passed_characterData inside
  | instruction body inside => exact passed_instruction inside
  | declaration body inside start => exact passed_declaration inside start
  | plain text inside => exact passed_plain inside

end Lexeme

/-! ## All lexemes -/

/-- The number of open tags goes beyond the limit behind some of the lexemes, if `depth` are open
before them. -/
theorem nestsBeyond_flatMap (limit depth : Nat) (ls : List Lexeme) (hdepth : depth ≤ limit) :
    nestsBeyond limit depth (ls.flatMap Lexeme.chars) = true ↔
      ∃ front, front <+: ls ∧ limit < front.foldl Lexeme.count depth := by
  induction ls generalizing depth with
  | nil =>
    rw [List.flatMap_nil, nestsBeyond_of_dropWhile_eq_nil rfl]
    simp [List.prefix_nil, hdepth]
  | cons l ls ih =>
    rw [List.flatMap_cons, l.passed limit depth _ hdepth, Bool.or_eq_true, decide_eq_true_eq]
    constructor
    · intro h
      by_cases hcount : limit < l.count depth
      · exact ⟨[l], List.prefix_append [l] ls, hcount⟩
      · obtain ⟨front, hfront, hlimit⟩ :=
          (ih (l.count depth) (Nat.not_lt.mp hcount)).mp (h.resolve_left hcount)
        exact ⟨l :: front, List.cons_prefix_cons.mpr ⟨rfl, hfront⟩, hlimit⟩
    · rintro ⟨front, hfront, hlimit⟩
      cases front with
      | nil => exact absurd hlimit (Nat.not_lt.mpr hdepth)
      | cons l' front =>
        obtain ⟨rfl, htail⟩ := List.cons_prefix_cons.mp hfront
        by_cases hcount : limit < l'.count depth
        · exact .inl hcount
        · exact .inr ((ih (l'.count depth) (Nat.not_lt.mp hcount)).mpr ⟨front, htail, hlimit⟩)

/-- **Counting open tags by eye.** The nesting of a sequence of lexemes goes beyond the deepest
level exactly if the number of open tags does behind some of them; and on every text the count is
over after at most one round more than there are `<` in it. -/
theorem nestsBeyond_lexemes :
    (∀ ls : List Lexeme, nestsBeyond maxNesting 0 (ls.flatMap Lexeme.chars) = true ↔
      ∃ front, front <+: ls ∧ maxNesting < openTags front) ∧
    ∀ cs : List Char,
      scanFor maxNesting (cs.count '<' + 1) 0 cs = some (nestsBeyond maxNesting 0 cs) :=
  ⟨fun ls => nestsBeyond_flatMap maxNesting 0 ls (Nat.zero_le _),
    fun cs => scanFor_count maxNesting 0 cs (Nat.lt_succ_self _)⟩

/-- Tags in a value, a comment or a section do not count. -/
example : scanFor 1 6 0 "<a><!-- <b><c> --><d v='<x>'/><![CDATA[<e>]]></a>".toList =
    some false := by
  decide

end BehaviorIndex.Markup
