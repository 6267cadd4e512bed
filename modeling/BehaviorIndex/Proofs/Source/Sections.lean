import BehaviorIndex.Proofs.Text.Search
import BehaviorIndex.Source.Documentation
import Mathlib.Data.List.Induction

/-!
# Lines and their markers

A documentation comment is read line by line, by a reader that remembers only which part is open.

**Theorem (`ofComment_sorts`).** Where a line ends up can be told without the reader. A line of text
belongs to the part that the last marker before it opens, the brief is that of the last brief, and
no line is lost. So two comments can be read one after the other, if the second begins with a
marker.

A marker opens one part only, because briefs and the two kinds of headers begin with different
characters (`roleOf_cases`). One further line changes what the reader has as it changes what the
lines themselves tell (`Reads.concat`).
-/

namespace BehaviorIndex.Source

open Text

/-! ## Markers -/

/-- A line that begins a brief, or the entries of a port list. -/
def isMarker (line : List Char) : Bool :=
  (briefText? line).isSome || isHeader "input ports" line || isHeader "output ports" line

/-- A line that says something and is no marker. -/
def isText (line : List Char) : Bool := !line.isEmpty && !isMarker line

def lastMarker? (lines : List (List Char)) : Option (List Char) := (lines.filter isMarker).getLast?

/-- The text of the last brief. -/
def lastBrief? (lines : List (List Char)) : Option (List Char) :=
  (lines.filterMap briefText?).getLast?

namespace Part

/-- The part is open behind a marker. Without any marker it is the description. -/
def isOpen : Part → Option (List Char) → Bool
  | description, marker => marker.all fun line => (briefText? line).isSome
  | inputPorts, marker => marker.any (isHeader "input ports")
  | outputPorts, marker => marker.any (isHeader "output ports")

/-- What is kept of a line of text. -/
def entry : Part → List Char → String
  | description, line => String.ofList line
  | inputPorts, line | outputPorts, line => String.ofList (portEntry line)

end Part

/-- The lines of text that belong to a part: the last marker before them opens it. -/
def textOf (part : Part) (lines : List (List Char)) : List (List Char) :=
  (lines.zipIdx.filter fun numbered =>
    isText numbered.1 && part.isOpen (lastMarker? (lines.take numbered.2))).map Prod.fst

section

variable {line : List Char}

theorem head?_of_briefText? (h : (briefText? line).isSome) :
    line.head?.map Char.toLower = some '@' ∨ line.head?.map Char.toLower = some '\\' := by
  unfold briefText? at h
  split at h
  · next rest hrest =>
    rcases Option.or_eq_some_iff.mp hrest with hat | ⟨-, hslash⟩
    · left
      rw [afterPrefix?_eq_some_iff.mp hat]
      rfl
    · right
      rw [afterPrefix?_eq_some_iff.mp hslash]
      rfl
  · cases h

theorem head?_of_isHeader {title : String} (htitle : title.toList ≠ [])
    (h : isHeader title line = true) : line.head?.map Char.toLower = title.toList.head? := by
  simp only [isHeader, Bool.and_eq_true, beq_iff_eq] at h
  rw [← h.1, List.head?_map, List.head?_take, if_neg (by simpa using htitle)]

/-- A header does not begin like a brief, nor like a header with another first letter. -/
theorem isHeader_eq_false {title : String} (htitle : title.toList ≠ [])
    (h : line.head?.map Char.toLower ≠ title.toList.head?) : isHeader title line = false := by
  rw [← Bool.not_eq_true]
  exact fun hheader => h (head?_of_isHeader htitle hheader)

theorem isOpen_of_brief (h : (briefText? line).isSome) (part : Part) :
    part.isOpen (some line) = decide (part = .description) := by
  cases part with
  | description => exact h
  | inputPorts =>
    refine isHeader_eq_false (by decide) ?_
    rcases head?_of_briefText? h with hhead | hhead <;> rw [hhead] <;> decide
  | outputPorts =>
    refine isHeader_eq_false (by decide) ?_
    rcases head?_of_briefText? h with hhead | hhead <;> rw [hhead] <;> decide

theorem isOpen_of_inputHeader (hbrief : briefText? line = none)
    (h : isHeader "input ports" line = true) (part : Part) :
    part.isOpen (some line) = decide (part = .inputPorts) := by
  cases part with
  | description => simp [Part.isOpen, hbrief]
  | inputPorts => exact h
  | outputPorts =>
    refine isHeader_eq_false (by decide) ?_
    rw [head?_of_isHeader (by decide) h]
    decide

theorem isOpen_of_outputHeader (hbrief : briefText? line = none)
    (hinput : isHeader "input ports" line = false) (h : isHeader "output ports" line = true)
    (part : Part) : part.isOpen (some line) = decide (part = .outputPorts) := by
  cases part with
  | description => simp [Part.isOpen, hbrief]
  | inputPorts => exact hinput
  | outputPorts => exact h

end

/-- **Roles.** A line says nothing, is a brief or a header and opens one part, or is text. -/
theorem roleOf_cases (line : List Char) :
    line = [] ∧ roleOf line = .nothing ∨
    (∃ text, briefText? line = some text ∧ roleOf line = .brief text) ∨
    (∃ part : Part, briefText? line = none ∧ isMarker line = true ∧
      (∀ other : Part, other.isOpen (some line) = decide (other = part)) ∧
      roleOf line = .header part) ∨
    isText line = true ∧ roleOf line = .content := by
  cases line with
  | nil => exact .inl ⟨rfl, rfl⟩
  | cons c cs =>
    right
    cases hbrief : briefText? (c :: cs) with
    | some text => exact .inl ⟨text, rfl, by simp [roleOf, hbrief]⟩
    | none =>
      right
      by_cases hinput : isHeader "input ports" (c :: cs) = true
      · refine .inl ⟨.inputPorts, rfl, by simp [isMarker, hinput],
          isOpen_of_inputHeader hbrief hinput, by simp [roleOf, hbrief, hinput]⟩
      · rw [Bool.not_eq_true] at hinput
        by_cases houtput : isHeader "output ports" (c :: cs) = true
        · refine .inl ⟨.outputPorts, rfl, by simp [isMarker, houtput],
            isOpen_of_outputHeader hbrief hinput houtput, by simp [roleOf, hbrief, hinput, houtput]⟩
        · exact .inr ⟨by simp [isText, isMarker, hbrief, hinput, houtput],
            by simp [roleOf, hbrief, hinput, houtput]⟩

/-! ## One further line -/

section

variable {lines more : List (List Char)} {line : List Char} {part : Part}

theorem lastMarker?_append (lines more : List (List Char)) :
    lastMarker? (lines ++ more) = (lastMarker? more).or (lastMarker? lines) := by
  rw [lastMarker?, List.filter_append, List.getLast?_append, lastMarker?, lastMarker?]

theorem lastBrief?_append (lines more : List (List Char)) :
    lastBrief? (lines ++ more) = (lastBrief? more).or (lastBrief? lines) := by
  rw [lastBrief?, List.filterMap_append, List.getLast?_append, lastBrief?, lastBrief?]

/-- The text behind some lines: it may belong to a part that these lines open. -/
theorem textOf_append (part : Part) (lines more : List (List Char)) :
    textOf part (lines ++ more) = textOf part lines ++
      (more.zipIdx.filter fun numbered => isText numbered.1 && part.isOpen
        ((lastMarker? (more.take numbered.2)).or (lastMarker? lines))).map Prod.fst := by
  rw [textOf, List.zipIdx_append, List.filter_append, List.map_append]
  congr 1
  · rw [textOf]
    congr 1
    refine List.filter_congr fun numbered hnumbered => ?_
    have := List.snd_lt_of_mem_zipIdx hnumbered
    rw [List.take_append_of_le_length (by omega)]
  · rw [List.zipIdx_eq_map_add, List.filter_map, List.map_map]
    congr 1
    refine List.filter_congr fun numbered _ => ?_
    simp only [Function.comp_apply, Nat.zero_add, List.take_length_add_append, lastMarker?_append]

theorem textOf_concat (part : Part) (lines : List (List Char)) (line : List Char) :
    textOf part (lines ++ [line]) = textOf part lines ++
      if isText line && part.isOpen (lastMarker? lines) then [line] else [] := by
  rw [textOf_append, List.zipIdx_singleton, List.filter_cons]
  -- No line stands before this one, behind the others.
  have hlast : lastMarker? ([line].take 0) = none := rfl
  rw [hlast, Option.none_or]
  split <;> rfl

theorem textOf_concat_of_not_isText (h : isText line = false) :
    textOf part (lines ++ [line]) = textOf part lines := by
  simp [textOf_concat, h]

theorem lastMarker?_concat (lines : List (List Char)) (line : List Char) :
    lastMarker? (lines ++ [line]) = if isMarker line then some line else lastMarker? lines := by
  rw [lastMarker?_append]
  by_cases h : isMarker line = true <;> simp [lastMarker?, h]

theorem lastBrief?_concat (lines : List (List Char)) (line : List Char) :
    lastBrief? (lines ++ [line]) = (briefText? line).or (lastBrief? lines) := by
  rw [lastBrief?_append]
  cases h : briefText? line <;> simp [lastBrief?, h]

theorem isText_of_isMarker (h : isMarker line = true) : isText line = false := by
  simp [isText, h]

theorem isMarker_of_isText (h : isText line = true) : isMarker line = false := by
  simp only [isText, Bool.and_eq_true, Bool.not_eq_true'] at h
  exact h.2

theorem isMarker_of_briefText? {text : List Char} (h : briefText? line = some text) :
    isMarker line = true := by
  simp [isMarker, h]

theorem briefText?_of_not_isMarker (h : isMarker line = false) : briefText? line = none := by
  simp only [isMarker, Bool.or_eq_false_iff] at h
  simpa using h.1.1

end

/-! ## What the reader has -/

namespace Sections

/-- What the sections hold for a part. -/
def entries (s : Sections) : Part → List String
  | .description => s.description
  | .inputPorts => s.inputPorts
  | .outputPorts => s.outputPorts

def length (s : Sections) : Nat :=
  s.description.length + s.inputPorts.length + s.outputPorts.length

theorem entries_add (s : Sections) (part : Part) (line : List Char) (other : Part) :
    (s.add part line).entries other =
      s.entries other ++ if other = part then [part.entry line] else [] := by
  cases part <;> cases other <;> simp [entries, add, Part.entry]

theorem length_add (s : Sections) (part : Part) (line : List Char) :
    (s.add part line).length = s.length + 1 := by
  cases part <;> simp [length, add] <;> omega

theorem brief_add (s : Sections) (part : Part) (line : List Char) :
    (s.add part line).brief = s.brief := by
  cases part <;> rfl

/-- What a reader has behind some lines: the sections, and the part that is open. -/
structure Reads (lines : List (List Char)) (state : Sections × Part) : Prop where
  entries : ∀ part : Part, state.1.entries part = (textOf part lines).map part.entry
  length : state.1.length = lines.countP isText
  brief : state.1.brief = String.ofList ((lastBrief? lines).getD [])
  isOpen : ∀ part : Part, part.isOpen (lastMarker? lines) = decide (part = state.2)

theorem reads_nil : Reads [] ({}, .description) where
  entries part := by cases part <;> rfl
  length := rfl
  brief := rfl
  isOpen part := by cases part <;> rfl

variable {lines : List (List Char)} {state : Sections × Part}

/-- A line that is neither text nor a marker leaves all as it is. -/
theorem Reads.skip {line : List Char} (h : Reads lines state) (htext : isText line = false)
    (hmarker : isMarker line = false) : Reads (lines ++ [line]) state where
  entries part := by rw [textOf_concat_of_not_isText htext, h.entries]
  length := by simp [h.length, htext]
  brief := by
    rw [h.brief, lastBrief?_concat, briefText?_of_not_isMarker hmarker, Option.none_or]
  isOpen part := by
    rw [lastMarker?_concat, if_neg (by simp [hmarker])]
    exact h.isOpen part

/-- A marker opens a part; it may set the brief. -/
theorem Reads.mark {line : List Char} {opened : Part} {brief : String} (h : Reads lines state)
    (hmarker : isMarker line = true)
    (hopen : ∀ part : Part, part.isOpen (some line) = decide (part = opened))
    (hbrief : brief = ((briefText? line).map String.ofList).getD state.1.brief) :
    Reads (lines ++ [line]) ({ state.1 with brief }, opened) where
  entries part := by
    rw [textOf_concat_of_not_isText (isText_of_isMarker hmarker), ← h.entries]
    cases part <;> rfl
  length := by
    rw [List.countP_append, ← h.length]
    simp [isText_of_isMarker hmarker, Sections.length]
  brief := by
    rw [lastBrief?_concat, hbrief, h.brief]
    cases briefText? line <;> rfl
  isOpen part := by
    rw [lastMarker?_concat, if_pos hmarker]
    exact hopen part

/-- A line of text goes to the part that is open. -/
theorem Reads.text {line : List Char} (h : Reads lines state) (htext : isText line = true) :
    Reads (lines ++ [line]) (state.1.add state.2 line, state.2) where
  entries part := by
    rw [entries_add, h.entries, textOf_concat, htext, Bool.true_and, h.isOpen, List.map_append]
    by_cases hpart : part = state.2 <;> simp [hpart]
  length := by simp [length_add, h.length, htext]
  brief := by
    have hmarker := isMarker_of_isText htext
    rw [brief_add, h.brief, lastBrief?_concat, briefText?_of_not_isMarker hmarker, Option.none_or]
  isOpen part := by
    rw [lastMarker?_concat, if_neg (by simp [isMarker_of_isText htext])]
    exact h.isOpen part

/-- **One line.** What the reader has follows the lines. -/
theorem Reads.concat (h : Reads lines state) (line : List Char) :
    Reads (lines ++ [line]) (read state line) := by
  rcases roleOf_cases line with ⟨rfl, hrole⟩ | ⟨text, hbrief, hrole⟩ |
    ⟨opened, hbrief, hmarker, hopen, hrole⟩ | ⟨htext, hrole⟩
  · have hread : read state [] = state := by rw [read, hrole]
    rw [hread]
    exact h.skip rfl rfl
  · have hread : read state line =
        ({ state.1 with brief := String.ofList text }, .description) := by
      rw [read, hrole]
    rw [hread]
    exact h.mark (isMarker_of_briefText? hbrief) (isOpen_of_brief (by simp [hbrief]))
      (by simp [hbrief])
  · have hread : read state line = (state.1, opened) := by rw [read, hrole]
    rw [hread]
    exact h.mark hmarker hopen (by simp [hbrief])
  · have hread : read state line = (state.1.add state.2 line, state.2) := by rw [read, hrole]
    rw [hread]
    exact h.text htext

/-- **All lines.** -/
theorem reads_foldl (lines : List (List Char)) :
    Reads lines (lines.foldl read ({}, .description)) := by
  induction lines using List.reverseRecOn with
  | nil => exact reads_nil
  | append_singleton lines line ih =>
    rw [List.foldl_append, List.foldl_cons, List.foldl_nil]
    exact ih.concat line

theorem ofComment_eq (raw : List (List Char)) :
    ofComment raw = ((raw.map stripLine).foldl read ({}, .description)).1 := by
  rw [ofComment, List.foldl_map]
  rfl

end Sections

/-! ## Two comments -/

/-- The first line that says something is a marker. -/
def BeginsMarked (lines : List (List Char)) : Prop :=
  ∀ line ∈ lines.find? (!·.isEmpty), isMarker line = true

section

variable {lines more : List (List Char)} {line : List Char}

/-- If the lines begin with a marker, every line of text has a marker before it. -/
theorem BeginsMarked.isSome_lastMarker? (h : BeginsMarked lines) {i : Nat}
    (hline : lines[i]? = some line) (htext : isText line = true) :
    (lastMarker? (lines.take i)).isSome := by
  have hempty : (!line.isEmpty) = true := by
    simp only [isText, Bool.and_eq_true] at htext
    exact htext.1
  obtain ⟨first, hfirst⟩ : ∃ first, lines.find? (!·.isEmpty) = some first :=
    Option.isSome_iff_exists.mp
      (List.find?_isSome.mpr ⟨line, List.mem_of_getElem? hline, hempty⟩)
  have hmarker := h first hfirst
  obtain ⟨-, front, back, rfl, hfront⟩ := List.find?_eq_some_iff_append.mp hfirst
  -- The line of text comes behind the first line that says something.
  have hbehind : front.length < i := by
    rcases Nat.lt_trichotomy i front.length with hi | rfl | hi
    · rw [List.getElem?_append_left hi] at hline
      simpa [hempty] using hfront line (List.mem_of_getElem? hline)
    · rw [List.getElem?_append_right (Nat.le_refl _), Nat.sub_self] at hline
      obtain rfl := Option.some_inj.mp hline
      rw [isText_of_isMarker hmarker] at htext
      cases htext
    · exact hi
  obtain ⟨k, rfl⟩ := Nat.exists_eq_add_of_lt hbehind
  have hmem : first ∈ (front ++ first :: back).take (front.length + (k + 1)) := by
    rw [List.take_length_add_append, List.take_succ_cons]
    simp
  rw [lastMarker?, List.getLast?_isSome]
  exact List.ne_nil_of_mem (List.mem_filter.mpr ⟨hmem, hmarker⟩)

theorem textOf_append_of_beginsMarked (part : Part) (lines : List (List Char))
    (h : BeginsMarked more) :
    textOf part (lines ++ more) = textOf part lines ++ textOf part more := by
  rw [textOf_append]
  congr 1
  rw [textOf]
  congr 1
  refine List.filter_congr fun numbered hnumbered => ?_
  by_cases htext : isText numbered.1 = true
  · have hsome := h.isSome_lastMarker? (List.mem_zipIdx_iff_getElem?.mp hnumbered) htext
    rw [Option.or_of_isSome hsome]
  · simp [htext]

theorem isSome_lastBrief?_iff (lines : List (List Char)) :
    (lastBrief? lines).isSome ↔ ∃ line ∈ lines, (briefText? line).isSome := by
  rw [lastBrief?, List.getLast?_isSome, ne_eq, List.filterMap_eq_nil_iff]
  simp [Option.isSome_iff_ne_none]

theorem countP_isText_add (lines : List (List Char)) :
    lines.countP isText + lines.countP isMarker = lines.countP (!·.isEmpty) := by
  induction lines with
  | nil => rfl
  | cons line lines ih =>
    have hline : (if isText line then 1 else 0) + (if isMarker line then 1 else 0) =
        if !line.isEmpty then 1 else 0 := by
      cases line with
      | nil => rfl
      | cons c cs => cases h : isMarker (c :: cs) <;> simp [isText, h]
    simp only [List.countP_cons]
    omega

end

namespace Sections

/-- The sections are what the lines tell. -/
structure Sorts (lines : List (List Char)) (s : Sections) : Prop where
  entries : ∀ part : Part, s.entries part = (textOf part lines).map part.entry
  brief : s.brief = String.ofList ((lastBrief? lines).getD [])
  total : s.description.length + s.inputPorts.length + s.outputPorts.length +
    lines.countP isMarker = lines.countP (!·.isEmpty)

theorem sorts_ofComment (raw : List (List Char)) : Sorts (raw.map stripLine) (ofComment raw) := by
  rw [ofComment_eq]
  have h := reads_foldl (raw.map stripLine)
  refine ⟨h.entries, h.brief, ?_⟩
  rw [← countP_isText_add, ← h.length]
  rfl

/-- The sections of two comments, one after the other. -/
structure Joins (raw more : List (List Char)) : Prop where
  entries : ∀ part : Part, (ofComment (raw ++ more)).entries part =
    (ofComment raw).entries part ++ (ofComment more).entries part
  brief : (ofComment (raw ++ more)).brief =
    if ∃ line ∈ more.map stripLine, (briefText? line).isSome then (ofComment more).brief
    else (ofComment raw).brief

/-- **Sections.** Each line of text is in the part that the last marker before it opens. A comment
that begins with a marker adds its sections to those of the comment before it. -/
theorem ofComment_sorts (raw more : List (List Char)) :
    Sorts (raw.map stripLine) (ofComment raw) ∧
      (BeginsMarked (more.map stripLine) → Joins raw more) := by
  refine ⟨sorts_ofComment raw, fun hmore => ⟨fun part => ?_, ?_⟩⟩
  · rw [(sorts_ofComment _).entries, List.map_append, textOf_append_of_beginsMarked part _ hmore,
      List.map_append, (sorts_ofComment raw).entries, (sorts_ofComment more).entries]
  · rw [(sorts_ofComment _).brief, List.map_append, lastBrief?_append, (sorts_ofComment raw).brief,
      (sorts_ofComment more).brief]
    simp only [← isSome_lastBrief?_iff]
    cases lastBrief? (more.map stripLine) <;> rfl

/-- The second comment has its brief behind an empty line, and goes back to the input ports. -/
theorem ofComment_sorts_relay :
    let raw := ["/** @brief Waits.", " * Until done.", " * INPUT ports :", " * - time", " */"].map
      String.toList
    let more := ["///", "/// \\brief Runs.", "/// Output Ports:", "/// - done", "/// Input Ports:",
      "/// -- speed"].map String.toList
    BeginsMarked (more.map stripLine) ∧ (ofComment (raw ++ more)).brief = "Runs." ∧
      (ofComment (raw ++ more)).entries .inputPorts = ["time", "speed"] := by
  intro raw more
  have hfirst : (more.map stripLine).find? (!·.isEmpty) = some "\\brief Runs.".toList := by
    decide +kernel
  have hmarked : BeginsMarked (more.map stripLine) := by
    rw [BeginsMarked, hfirst]
    intro line hline
    obtain rfl := Option.some_inj.mp hline
    decide +kernel
  have hjoins := (ofComment_sorts raw more).2 hmarked
  refine ⟨hmarked, ?_, ?_⟩
  · rw [hjoins.brief]
    decide +kernel
  · rw [hjoins.entries]
    decide +kernel

end Sections

end BehaviorIndex.Source
