import BehaviorIndex.Proofs.Source.Comment
import BehaviorIndex.Source.Documentation

/-!
# Styles of comments

A documentation comment can be written as a block, or as lines that begin with slashes.

**Theorem (`documentation_written`).** What is documented does not depend on the style. Lines of
content, written in any style above a declaration, document it with the sections that the content
itself gives (`Sections.ofContent`).

The comment is found as it was written (`commentAbove_write`): none of its lines ends it early, and
the line above it does not belong to it. Stripping a line gives back the content
(`stripLine_written`), because the content does not look like a comment sign where it meets one, and
the two lines around a block say nothing.
-/

namespace BehaviorIndex.Source

open BehaviorIndex.Text
open BehaviorIndex.Markup (Stops stops_cons)

/-! ## Content and styles -/

/-- A line that can be written in a comment: no blank at either end, no star at its start, and
nothing that opens or closes a block. -/
structure IsContent (line : List Char) : Prop where
  head : ∀ c ∈ line.head?, isBlank c = false
  last : ∀ c ∈ line.getLast?, isBlank c = false
  noStar : ¬ ['*'] <+: line
  noOpening : ¬ opening <:+: line
  noClosing : ¬ closing <:+: line

instance (line : List Char) : Decidable (IsContent line) :=
  decidable_of_iff (line.head?.all (!isBlank ·) = true ∧ line.getLast?.all (!isBlank ·) = true ∧
      ¬ ['*'].isPrefixOf line = true ∧ ¬ contains opening line = true ∧
      ¬ contains closing line = true) <| by
    simp only [Option.all_eq_true, Bool.not_eq_true', List.isPrefixOf_iff_prefix, contains_iff]
    constructor
    · rintro ⟨hhead, hlast, hstar, hopening, hclosing⟩
      exact ⟨hhead, hlast, hstar, hopening, hclosing⟩
    · rintro ⟨hhead, hlast, hstar, hopening, hclosing⟩
      exact ⟨hhead, hlast, hstar, hopening, hclosing⟩

/-- A block, or lines that begin with two slashes and some more. -/
inductive Style where
  | block
  | slashes (more : Nat)
  deriving DecidableEq, Repr

namespace Style

/-- What stands before the content on each line. -/
def mark : Style → List Char
  | block => ['*']
  | slashes more => '/' :: '/' :: List.replicate more '/'

/-- The lines of a comment. -/
def write (content : List (List Char)) : Style → List (List Char)
  | block => ['/', '*', '*'] :: (content.map ([' ', '*', ' '] ++ ·) ++ [[' ', '*', '/']])
  | slashes more => content.map ((slashes more).mark ++ ' ' :: ·)

/-- The lines of a comment as they are found. -/
def found (content : List (List Char)) (style : Style) : List (List Char) :=
  let lines := content.map fun line => trim (style.mark ++ ' ' :: line)
  match style with
  | block => ['/', '*', '*'] :: (lines ++ [['*', '/']])
  | slashes _ => lines

theorem eq_of_mem_mark {style : Style} {c : Char} (h : c ∈ style.mark) : c = '*' ∨ c = '/' := by
  cases style with
  | block => exact .inl (List.mem_singleton.mp h)
  | slashes more =>
    rcases List.mem_cons.mp h with rfl | h
    · exact .inr rfl
    · exact .inr (List.eq_of_mem_replicate (List.replicate_succ ▸ h))

theorem not_isBlank_of_mem_mark {style : Style} {c : Char} (h : c ∈ style.mark) :
    isBlank c = false := by
  rcases eq_of_mem_mark h with rfl | rfl <;> decide

end Style

/-! ## Lines -/

section

variable {line : List Char}

theorem IsContent.stops_reverse (h : IsContent line) : Stops isBlank line.reverse := by
  intro c hc
  rw [List.head?_reverse] at hc
  exact h.last c hc

theorem IsContent.stops_reverse_append (h : IsContent line) (hne : line ≠ []) (front : List Char) :
    Stops isBlank (front ++ line).reverse := by
  intro c hc
  have hlast := List.getLast?_eq_some_getLast hne
  rw [List.head?_reverse, List.getLast?_append, hlast, Option.some_or, ← hlast] at hc
  exact h.last c hc

/-- Behind a blank, the content closes no block. -/
theorem IsContent.not_closing (h : IsContent line) (front : List Char) :
    ¬ closing <:+ front ++ ' ' :: line := by
  intro hsuffix
  rcases List.suffix_or_suffix_of_suffix hsuffix (List.suffix_append front (' ' :: line)) with
    hinside | hover
  · rcases List.suffix_cons_iff.mp hinside with heq | hline
    · cases heq
    · exact h.noClosing hline.isInfix
  · exact absurd (hover.subset List.mem_cons_self) (by decide)

/-- Behind a star and a blank, the content opens no block. -/
theorem IsContent.not_opening (h : IsContent line) : ¬ opening <:+: '*' :: ' ' :: line := by
  simp only [List.infix_cons_iff, not_or]
  exact ⟨by simp [opening], by simp [opening], h.noOpening⟩

variable (style : Style)

theorem trim_mark : trim style.mark = style.mark := by
  have hstops : ∀ cs : List Char, (∀ c ∈ cs, c ∈ style.mark) → Stops isBlank cs :=
    fun cs hcs c hc => Style.not_isBlank_of_mem_mark (hcs c (List.mem_of_mem_head? hc))
  exact trim_eq_self (hstops _ fun _ h => h) (hstops _ fun _ h => List.mem_reverse.mp h)

theorem trim_mark_blank : trim (style.mark ++ [' ']) = style.mark := by
  rw [trim_append (List.forall_mem_singleton.mpr (by decide)), trim_mark]

theorem trim_mark_append (h : IsContent line) (hne : line ≠ []) :
    trim (style.mark ++ ' ' :: line) = style.mark ++ ' ' :: line := by
  refine trim_eq_self ?_ ?_
  · cases style <;> exact stops_cons (by decide)
  · rw [List.append_cons]
    exact h.stops_reverse_append hne _

theorem isPrefix_trim_written (h : IsContent line) :
    style.mark <+: trim (style.mark ++ ' ' :: line) := by
  by_cases hne : line = []
  · simp [hne, trim_mark_blank]
  · rw [trim_mark_append style h hne]
    exact List.prefix_append _ _

/-- A line of slashes closes no block. -/
theorem not_closing_slashes (more : Nat) (h : IsContent line) :
    ¬ closing <:+ trim ((Style.slashes more).mark ++ ' ' :: line) := by
  by_cases hne : line = []
  · rw [hne, trim_mark_blank]
    intro hclosing
    have hstar : '*' ∈ List.replicate (more + 2) '/' := hclosing.subset List.mem_cons_self
    exact absurd (List.eq_of_mem_replicate hstar) (by decide)
  · rw [trim_mark_append _ h hne]
    exact h.not_closing _

theorem dropClosing_eq_self {cs : List Char} (h : ¬ closing <:+ trimEnd cs) :
    dropClosing cs = cs := by
  unfold dropClosing
  split
  · next rest hrest =>
    refine absurd ⟨rest.reverse, ?_⟩ h
    rw [← List.reverse_reverse (trimEnd cs), hrest]
    simp [closing]
  · rfl

theorem dropClosing_written (h : IsContent line) (hne : line ≠ []) (front : List Char) :
    dropClosing (front ++ ' ' :: line) = front ++ ' ' :: line := by
  refine dropClosing_eq_self ?_
  rw [List.append_cons, trimEnd_eq_self (h.stops_reverse_append hne _), ← List.append_cons]
  exact h.not_closing front

theorem dropOpening_slashes (more : Nat) {rest : List Char} (hrest : Stops (· == '/') rest) :
    dropOpening ((Style.slashes more).mark ++ rest) = rest := by
  change (List.replicate more '/' ++ rest).dropWhile (· == '/') = rest
  refine Markup.dropWhile_append_of_stops (fun c hc => ?_) hrest
  rw [List.eq_of_mem_replicate hc]
  rfl

/-- **Stripping.** A line that was written gives back its content. -/
theorem stripLine_written (h : IsContent line) :
    stripLine (trim (style.mark ++ ' ' :: line)) = line := by
  by_cases hne : line = []
  · subst hne
    rw [trim_mark_blank, stripLine, trim_mark]
    cases style with
    | block => rfl
    | slashes more =>
      have hopening : dropOpening ((Style.slashes more).mark ++ []) = [] :=
        dropOpening_slashes more fun c hc => nomatch hc
      rw [List.append_nil] at hopening
      rw [hopening]
      rfl
  · have hstart : trimStart (' ' :: line) = line := trimStart_eq_self h.head
    rw [trim_mark_append style h hne, stripLine, trim_mark_append style h hne]
    cases style with
    | block =>
      -- The star goes last, so the blank behind it is left to the trimming.
      change trim (dropLeading ['*'] (trimStart (dropClosing (['*'] ++ ' ' :: line)))) = line
      rw [dropClosing_written h hne]
      change trimEnd (trimStart (' ' :: line)) = line
      rw [hstart, trimEnd_eq_self h.stops_reverse]
    | slashes more =>
      have hclosing := dropClosing_written h hne []
      rw [List.nil_append] at hclosing
      rw [dropOpening_slashes more (stops_cons (by decide)), hclosing, hstart, dropLeading,
        afterPrefix?_eq_none h.noStar]
      exact trim_eq_self h.head h.stops_reverse

end

/-! ## The comment that is found -/

section

variable {run inner rest : List (List Char)}

/-- A run of line comments is taken as a whole, if none of them closes a block. -/
theorem commentUpward_run (hne : run ≠ []) (hclosing : ∀ line ∈ run, ¬ closing <:+ line)
    (hrun : ∀ line ∈ run, isLineComment line = true)
    (hrest : ∀ line ∈ rest.head?, isLineComment line = false) :
    commentUpward (run ++ rest) = run := by
  obtain ⟨nearest, above, rfl⟩ := List.exists_cons_of_ne_nil hne
  have hnearest : ¬ closesBlock nearest = true := fun h =>
    hclosing nearest List.mem_cons_self (closesBlock_iff.mp h)
  have hstop : rest.takeWhile isLineComment = [] := by
    cases rest with
    | nil => rfl
    | cons line rest => exact List.takeWhile_cons_of_neg (by simp [hrest line rfl])
  rw [List.cons_append, commentUpward, if_neg hnearest, ← List.cons_append,
    List.takeWhile_append_of_pos hrun, hstop, List.append_nil]

theorem takeThrough_append {α : Type} {p : α → Bool} {xs : List α} (hxs : ∀ x ∈ xs, ¬ p x = true)
    {a : α} (ha : p a = true) (ys : List α) : takeThrough p (xs ++ a :: ys) = xs ++ [a] := by
  induction xs with
  | nil => simp [takeThrough, ha]
  | cons x xs ih =>
    obtain ⟨hx, hxs⟩ := List.forall_mem_cons.mp hxs
    simp [takeThrough, hx, ih hxs]

/-- A block is taken up to its first line, if no line between opens another. -/
theorem commentUpward_block (hinner : ∀ line ∈ inner, ¬ opening <:+: line) :
    commentUpward (['*', '/'] :: (inner ++ ['/', '*', '*'] :: rest)) =
      ['*', '/'] :: (inner ++ [['/', '*', '*']]) := by
  have hlines : ∀ line ∈ ['*', '/'] :: inner, ¬ opensBlock line = true := by
    refine List.forall_mem_cons.mpr ⟨by decide, fun line hline hopens => ?_⟩
    exact hinner line hline (opensBlock_iff.mp hopens)
  change takeThrough opensBlock ((['*', '/'] :: inner) ++ ['/', '*', '*'] :: rest) = _
  exact takeThrough_append hlines (by decide) rest

end

section

variable {before comment blanks after content : List (List Char)}

/-- Blank lines between a comment and the declaration are passed over. -/
theorem commentAbove_append (hblanks : ∀ line ∈ blanks, trim line = [])
    {front : List (List Char)} {nearest : List Char}
    (hcomment : comment.map trim = front ++ [nearest]) (hnearest : nearest ≠ []) :
    commentAbove (before ++ comment ++ blanks ++ after)
        (before.length + comment.length + blanks.length) =
      (commentUpward (nearest :: front.reverse ++ (before.map trim).reverse)).reverse := by
  have htake : (before ++ comment ++ blanks ++ after).take
      (before.length + comment.length + blanks.length) = before ++ comment ++ blanks := by
    rw [← List.length_append, ← List.length_append, List.take_left]
  have hupward : ((before ++ comment ++ blanks).map trim).reverse =
      (blanks.map trim).reverse ++ (nearest :: front.reverse ++ (before.map trim).reverse) := by
    simp [hcomment]
  have hempty : ∀ line ∈ (blanks.map trim).reverse, line.isEmpty = true := by
    intro line hline
    obtain ⟨raw, hraw, rfl⟩ := List.mem_map.mp (List.mem_reverse.mp hline)
    exact List.isEmpty_iff.mpr (hblanks raw hraw)
  simp only [commentAbove, htake, hupward]
  rw [List.dropWhile_append_of_pos hempty, List.cons_append,
    List.dropWhile_cons_of_neg (by simpa using hnearest)]

theorem commentAbove_block (hcontent : ∀ line ∈ content, IsContent line)
    (hblanks : ∀ line ∈ blanks, trim line = []) :
    commentAbove (before ++ Style.block.write content ++ blanks ++ after)
        (before.length + (Style.block.write content).length + blanks.length) =
      Style.block.found content := by
  have hfound : (Style.block.write content).map trim = ['/', '*', '*'] ::
      content.map (fun line => trim (Style.block.mark ++ ' ' :: line)) ++ [['*', '/']] := by
    rw [Style.write, List.map_cons, List.map_append, List.map_map]
    rfl
  rw [commentAbove_append hblanks hfound (by decide), List.reverse_cons, List.cons_append,
    List.append_assoc, List.singleton_append, commentUpward_block]
  · simp [Style.found]
  · intro line hline
    obtain ⟨raw, hraw, rfl⟩ := List.mem_map.mp (List.mem_reverse.mp hline)
    exact fun hopening => (hcontent raw hraw).not_opening (hopening.trans (trim_isInfix _))

theorem commentAbove_slashes (more : Nat) (hne : content ≠ [])
    (hcontent : ∀ line ∈ content, IsContent line)
    (hbefore : ∀ line ∈ before.getLast?, ¬ ['/', '/'] <+: trim line ∧ ¬ ['*'] <+: trim line)
    (hblanks : ∀ line ∈ blanks, trim line = []) :
    commentAbove (before ++ (Style.slashes more).write content ++ blanks ++ after)
        (before.length + ((Style.slashes more).write content).length + blanks.length) =
      (Style.slashes more).found content := by
  obtain ⟨front, last, rfl⟩ : ∃ front last, content = front ++ [last] :=
    ⟨_, _, (List.dropLast_concat_getLast hne).symm⟩
  have hfound : ((Style.slashes more).write (front ++ [last])).map trim =
      front.map (fun line => trim ((Style.slashes more).mark ++ ' ' :: line)) ++
        [trim ((Style.slashes more).mark ++ ' ' :: last)] := by
    rw [Style.write, List.map_map, List.map_append]
    rfl
  have hlines : ∀ line ∈ trim ((Style.slashes more).mark ++ ' ' :: last) ::
        (front.map fun line => trim ((Style.slashes more).mark ++ ' ' :: line)).reverse,
      ∃ raw, IsContent raw ∧ line = trim ((Style.slashes more).mark ++ ' ' :: raw) := by
    intro line hline
    rcases List.mem_cons.mp hline with rfl | hline
    · exact ⟨last, hcontent last (by simp), rfl⟩
    · obtain ⟨raw, hraw, rfl⟩ := List.mem_map.mp (List.mem_reverse.mp hline)
      exact ⟨raw, hcontent raw (List.mem_append_left _ hraw), rfl⟩
  have hslashes : ∀ {raw}, IsContent raw →
      ['/', '/'] <+: trim ((Style.slashes more).mark ++ ' ' :: raw) := fun hraw =>
    List.IsPrefix.trans ⟨_, rfl⟩ (isPrefix_trim_written (.slashes more) hraw)
  rw [commentAbove_append hblanks hfound, commentUpward_run (List.cons_ne_nil _ _)]
  · simp [Style.found]
  · intro line hline
    obtain ⟨raw, hraw, rfl⟩ := hlines line hline
    exact not_closing_slashes more hraw
  · intro line hline
    obtain ⟨raw, hraw, rfl⟩ := hlines line hline
    exact isLineComment_iff.mpr (.inl (hslashes hraw))
  · -- The line above the comment ends the run.
    intro line hline
    rw [List.head?_reverse, List.getLast?_map] at hline
    obtain ⟨raw, hraw, rfl⟩ := Option.map_eq_some_iff.mp hline
    rw [← Bool.not_eq_true, isLineComment_iff, not_or]
    exact hbefore raw hraw
  · intro hnil
    have hprefix := hslashes (hcontent last (by simp))
    rw [hnil] at hprefix
    exact absurd (List.prefix_nil.mp hprefix) (List.cons_ne_nil _ _)

/-- **Finding.** A comment is found as it was written. -/
theorem commentAbove_write (style : Style) (hne : content ≠ [])
    (hcontent : ∀ line ∈ content, IsContent line)
    (hbefore : ∀ line ∈ before.getLast?, ¬ ['/', '/'] <+: trim line ∧ ¬ ['*'] <+: trim line)
    (hblanks : ∀ line ∈ blanks, trim line = []) :
    commentAbove (before ++ style.write content ++ blanks ++ after)
        (before.length + (style.write content).length + blanks.length) = style.found content := by
  cases style with
  | block => exact commentAbove_block hcontent hblanks
  | slashes more => exact commentAbove_slashes more hne hcontent hbefore hblanks

end

/-! ## Sections -/

namespace Sections

/-- The sections of what a comment says. -/
def ofContent (content : List (List Char)) : Sections := (content.foldl read ({}, .description)).1

theorem foldl_step_written (style : Style) {content : List (List Char)}
    (hcontent : ∀ line ∈ content, IsContent line) (state : Sections × Part) :
    (content.map fun line => trim (style.mark ++ ' ' :: line)).foldl step state =
      content.foldl read state := by
  induction content generalizing state with
  | nil => rw [List.map_nil, List.foldl_nil, List.foldl_nil]
  | cons line content ih =>
    obtain ⟨hline, hcontent⟩ := List.forall_mem_cons.mp hcontent
    rw [List.map_cons, List.foldl_cons, List.foldl_cons, step,
      stripLine_written style hline, ih hcontent]

/-- **Reading.** A comment says its content. -/
theorem ofComment_found (style : Style) {content : List (List Char)}
    (hcontent : ∀ line ∈ content, IsContent line) :
    ofComment (style.found content) = ofContent content := by
  rw [ofComment, ofContent, ← foldl_step_written style hcontent]
  cases style with
  | block =>
    -- The lines around a block say nothing.
    have hfirst : ∀ state, step state ['/', '*', '*'] = state := fun _ => rfl
    have hlast : ∀ state, step state ['*', '/'] = state := fun _ => rfl
    rw [Style.found, List.foldl_cons, hfirst, List.foldl_append, List.foldl_cons, hlast]
    rfl
  | slashes more => rfl

end Sections

/-- **Documentation does not depend on the style.** Whatever style a comment is written in, it
documents the declaration below it by its content. -/
theorem documentation_written {before blanks after content : List (List Char)} (hne : content ≠ [])
    (hcontent : ∀ line ∈ content, IsContent line)
    (hbefore : ∀ line ∈ before.getLast?, ¬ ['/', '/'] <+: trim line ∧ ¬ ['*'] <+: trim line)
    (hblanks : ∀ line ∈ blanks, trim line = []) (style : Style) :
    documentation (before ++ style.write content ++ blanks ++ after)
        (before.length + (style.write content).length + blanks.length) =
      Sections.ofContent content := by
  rw [documentation, commentAbove_write style hne hcontent hbefore hblanks]
  exact Sections.ofComment_found style hcontent

/-- Content with an empty line, a line that begins with a slash, and both kinds of markers. -/
def gripper : List (List Char) :=
  ["@brief Opens the gripper.", "", "/ Input Ports are below.", "Input Ports:", "- force"].map
    String.toList

/-- The comment stands below a line that ends in another comment, and two blank lines above the
declaration. -/
theorem documentation_written_gripper :
    let before := ["int x; // last".toList]
    let blanks := ["".toList, " \t".toList]
    let after := ["class Gripper;".toList]
    let sections : Sections :=
      ⟨"Opens the gripper.", ["/ Input Ports are below."], ["force"], []⟩
    (∀ line ∈ gripper, IsContent line) ∧
      documentation (before ++ Style.block.write gripper ++ blanks ++ after) 10 = sections ∧
      documentation (before ++ (Style.slashes 1).write gripper ++ blanks ++ after) 8 = sections ∧
      documentation (before ++ (Style.slashes 0).write gripper ++ blanks ++ after) 8 =
        sections := by
  intro before blanks after sections
  have hcontent : ∀ line ∈ gripper, IsContent line := by decide +kernel
  have hbefore : ∀ line ∈ before.getLast?, ¬ ['/', '/'] <+: trim line ∧ ¬ ['*'] <+: trim line := by
    intro line hline
    obtain rfl := Option.some_inj.mp hline
    decide +kernel
  have hblanks : ∀ line ∈ blanks, trim line = [] := by decide +kernel
  have hsections : Sections.ofContent gripper = sections := by decide +kernel
  have hwritten : ∀ style : Style, documentation (before ++ style.write gripper ++ blanks ++ after)
      (before.length + (style.write gripper).length + blanks.length) = sections := fun style =>
    (documentation_written (by decide) hcontent hbefore hblanks style).trans hsections
  exact ⟨hcontent, hwritten .block, hwritten (.slashes 1), hwritten (.slashes 0)⟩

end BehaviorIndex.Source
