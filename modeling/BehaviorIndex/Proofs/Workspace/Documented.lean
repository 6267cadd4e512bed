import BehaviorIndex.Proofs.Files.Canonical
import BehaviorIndex.Proofs.Markup.Columns
import BehaviorIndex.Proofs.Source.Order
import BehaviorIndex.Proofs.Text.Blank
import BehaviorIndex.Workspace.Query
import Mathlib.Data.List.TakeWhile

/-!
# The line of a declaration

The index numbers the lines of a text by a table of line feeds, and the documentation of a node is
read from the lines that `splitLines` gives. The two treat carriage returns and the end of the text
in different ways: the table drops all returns before a line feed, and counts an empty line behind
the last one; the splitter drops one return, and none on a last line without a line feed.

**Theorem (`documentation_of_scan`).** Up to blanks the two have the same lines under the same
numbers. So the line that the index keeps for a declaration is one of those that are split, and its
documentation is found there, unless there are too many lines for a number of 32 bits.

A text is cut around a line as in `exists_body`. The splitter takes one line from the text for each
line feed before the cut (`splitLines_front`), so the line behind the cut is the first one that it
takes from the rest (`head?_splitLines`). A declaration begins before a character
(`exists_of_mem_scanFrom`), so there is a rest.

**Refutation (`not_documentsScan_feeds`).** Behind `UInt32.size` line feeds, the index keeps line zero
for a declaration, and what is found there is not the declaration.
-/

namespace BehaviorIndex.Text

/-! ## Blanks at the end -/

/-- To drop carriage returns at the end is to drop blanks. -/
theorem trim_of_returns {body line : List Char} (returns : List Char)
    (hbody : body = line ++ returns) (h : ∀ c ∈ returns, c = '\r') : trim line = trim body := by
  rw [hbody, trim_append]
  intro c hc
  rw [h c hc]
  decide

theorem trim_withoutReturns (body : List Char) : trim (withoutReturns body) = trim body := by
  refine trim_of_returns (body.reverse.takeWhile (· == '\r')).reverse ?_ ?_
  · rw [withoutReturns, ← List.reverse_append, List.takeWhile_append_dropWhile,
      List.reverse_reverse]
  · intro c hc
    simpa using List.mem_takeWhile_imp (List.mem_reverse.mp hc)

theorem trim_stripReturn (body : List Char) : trim (stripReturn body) = trim body := by
  unfold stripReturn
  split
  · next cs hcs =>
    refine trim_of_returns ['\r'] ?_ (by simp)
    rw [← List.reverse_cons, ← hcs, List.reverse_reverse]
  · rfl

/-! ## Splitting -/

theorem dropWhile_upToFeed {body : List Char} (hbody : '\n' ∉ body) (rest : List Char) :
    (body ++ rest).dropWhile (· != '\n') = rest.dropWhile (· != '\n') := by
  refine List.dropWhile_append_of_pos fun c hc => ?_
  rw [bne_iff_ne]
  rintro rfl
  exact hbody hc

theorem takeWhile_upToFeed {body rest : List Char} (hbody : '\n' ∉ body)
    (hrest : rest = [] ∨ ∃ more, rest = '\n' :: more) :
    (body ++ rest).takeWhile (· != '\n') = body := by
  rw [List.takeWhile_append_of_pos]
  · rcases hrest with rfl | ⟨more, rfl⟩
    · rw [List.takeWhile_nil, List.append_nil]
    · rw [List.takeWhile_cons_of_neg (by simp), List.append_nil]
  · intro c hc
    rw [bne_iff_ne]
    rintro rfl
    exact hbody hc

theorem splitLines_of_notMem {body : List Char} (hbody : '\n' ∉ body) (hne : body ≠ []) :
    splitLines body = [body] := by
  have hdrop := dropWhile_upToFeed hbody []
  rw [List.append_nil, List.dropWhile_nil] at hdrop
  cases body with
  | nil => exact absurd rfl hne
  | cons c cs =>
    rw [splitLines]
    split
    · rfl
    · next hrest =>
      rw [hdrop] at hrest
      cases hrest

theorem splitLines_feed {body : List Char} (hbody : '\n' ∉ body) (more : List Char) :
    splitLines (body ++ '\n' :: more) = stripReturn body :: splitLines more := by
  have hdrop := dropWhile_upToFeed hbody ('\n' :: more)
  have htake := takeWhile_upToFeed hbody (.inr ⟨more, rfl⟩)
  rw [List.dropWhile_cons_of_neg (by simp)] at hdrop
  obtain ⟨c, cs, hcs⟩ := List.exists_cons_of_ne_nil (show body ++ '\n' :: more ≠ [] by simp)
  rw [hcs] at hdrop htake ⊢
  rw [splitLines]
  split
  · next hrest =>
    rw [hdrop] at hrest
    cases hrest
  · next hrest =>
    rw [hdrop] at hrest
    cases hrest
    rw [htake]

theorem splitLines_append_feed (lines rest : List Char) :
    ∃ before, before.length = lines.count '\n' + 1 ∧
      splitLines (lines ++ '\n' :: rest) = before ++ splitLines rest := by
  induction hn : lines.length using Nat.strongRecOn generalizing lines with
  | ind n ih =>
    obtain ⟨body, behind, rfl, hbody, rfl | ⟨more, rfl⟩⟩ := exists_upToFeed lines
    · rw [List.append_nil]
      exact ⟨[stripReturn body], by simp [List.count_eq_zero.mpr hbody], splitLines_feed hbody rest⟩
    · -- One line is split off, and there are fewer lines behind it.
      obtain ⟨before, hlength, hmore⟩ := ih more.length (by simp [← hn]; omega) more rfl
      refine ⟨stripReturn body :: before, ?_, ?_⟩
      · simp [List.count_append, List.count_eq_zero.mpr hbody, hlength]
      · rw [List.append_assoc, List.cons_append, splitLines_feed hbody, hmore, List.cons_append]

/-- Each full line is split off as one line. -/
theorem splitLines_front {front : List Char}
    (hfront : front = [] ∨ ∃ lines, front = lines ++ ['\n']) (rest : List Char) :
    ∃ before, before.length = front.count '\n' ∧
      splitLines (front ++ rest) = before ++ splitLines rest := by
  rcases hfront with rfl | ⟨lines, rfl⟩
  · exact ⟨[], rfl, rfl⟩
  · rw [List.append_assoc, List.singleton_append, List.count_append]
    exact splitLines_append_feed lines rest

theorem getElem?_splitLines {front : List Char}
    (hfront : front = [] ∨ ∃ lines, front = lines ++ ['\n']) (rest : List Char) :
    (splitLines (front ++ rest))[front.count '\n']? = (splitLines rest).head? := by
  obtain ⟨before, hlength, hsplit⟩ := splitLines_front hfront rest
  rw [hsplit, ← hlength, List.getElem?_append_right (Nat.le_refl _), Nat.sub_self,
    List.head?_eq_getElem?]

/-- The first line that is split off, up to blanks. -/
theorem head?_splitLines {body rest : List Char} (hbody : '\n' ∉ body)
    (hrest : rest = [] ∨ ∃ more, rest = '\n' :: more) (hne : body ++ rest ≠ []) :
    ∃ line, (splitLines (body ++ rest)).head? = some line ∧ trim line = trim body := by
  rcases hrest with rfl | ⟨more, rfl⟩
  · rw [List.append_nil] at hne ⊢
    exact ⟨body, by rw [splitLines_of_notMem hbody hne]; rfl, rfl⟩
  · exact ⟨stripReturn body, by rw [splitLines_feed hbody]; rfl, trim_stripReturn body⟩

/-! ## Numbers of lines -/

/-- The lines that are split have the same numbers in the table. -/
structure NumbersAlike (text : List Char) : Prop where
  /-- A line of the one is that of the other, up to blanks. -/
  trim_eq : ∀ number line, (splitLines text)[number]? = some line →
    ∃ line', (LineIndex.ofText text).lineText? number = some line' ∧ trim line = trim line'
  /-- The table has one more line at most, which is empty. -/
  further : (LineIndex.ofText text).starts.length = (splitLines text).length ∨
    (LineIndex.ofText text).starts.length = (splitLines text).length + 1 ∧
      (LineIndex.ofText text).lineText? (splitLines text).length = some []

/-- The table has as many lines as are split, unless the text ends with a full line or is empty. -/
theorem further_line (text : List Char) :
    (LineIndex.ofText text).starts.length = (splitLines text).length ∨
      (LineIndex.ofText text).starts.length = (splitLines text).length + 1 ∧
        (LineIndex.ofText text).lineText? (splitLines text).length = some [] := by
  obtain ⟨front, last, rfl, hfront, hlast⟩ := exists_lastLine text
  obtain ⟨before, hlength, hsplit⟩ := splitLines_front hfront last
  rw [length_starts, hsplit, List.length_append, hlength, List.count_append,
    List.count_eq_zero.mpr hlast]
  by_cases hnil : last = []
  · subst hnil
    have htext := LineIndex.lineText?_front hfront hlast (.inl rfl)
    rw [List.append_nil] at htext
    rw [splitLines]
    exact .inr ⟨rfl, htext⟩
  · rw [splitLines_of_notMem hlast hnil]
    exact .inl rfl

theorem numbersAlike (text : List Char) : NumbersAlike text := by
  refine ⟨fun number line hline => ?_, further_line text⟩
  have hnumber : number ≤ text.count '\n' := by
    have hlt := (List.getElem?_eq_some_iff.mp hline).1
    have hstarts := length_starts text
    have hfurther := further_line text
    omega
  obtain ⟨front, body, rest, rfl, rfl, hfront, hbody, hrest⟩ := exists_body hnumber
  refine ⟨_, LineIndex.lineText?_front hfront hbody hrest, ?_⟩
  rw [List.append_assoc, getElem?_splitLines hfront] at hline
  have hne : body ++ rest ≠ [] := by
    intro hnil
    rw [hnil, splitLines] at hline
    cases hline
  obtain ⟨line', hhead, htrim⟩ := head?_splitLines hbody hrest hne
  rw [hline, Option.some_inj] at hhead
  rw [hhead, htrim, trim_withoutReturns]

/-- The line of a text with the byte at an offset. The line feed that ends a line belongs to it. -/
def IsLineAt (text : List Char) (offset : Nat) (line : List Char) : Prop :=
  ∃ front rest, text = front ++ line ++ rest ∧ (front = [] ∨ ∃ lines, front = lines ++ ['\n']) ∧
    '\n' ∉ line ∧ (rest = [] ∨ ∃ more, rest = '\n' :: more) ∧
    byteSize front ≤ offset ∧ offset ≤ byteSize (front ++ line) ∧ offset < byteSize text

/-- Lines that hold the same byte begin at the same place. -/
theorem front_eq_of_le {text front front' line rest rest' line' : List Char} {offset : Nat}
    (htext : text = front ++ line ++ rest) (htext' : text = front' ++ line' ++ rest')
    (hfront' : front' = [] ∨ ∃ lines, front' = lines ++ ['\n']) (hline : '\n' ∉ line)
    (hlow : byteSize front' ≤ offset) (hhigh : offset ≤ byteSize (front ++ line))
    (hle : byteSize front ≤ byteSize front') : front = front' := by
  have hprefix' : front' <+: text := ⟨line' ++ rest', by rw [htext', List.append_assoc]⟩
  have hprefix : front ++ line <+: text := ⟨rest, htext.symm⟩
  obtain ⟨mid, rfl⟩ : front <+: front' :=
    prefix_of_byteSize_le ((List.prefix_append front line).trans hprefix) hprefix' hle
  have hmid : mid <+: line := (List.prefix_append_right_inj front).mp
    (prefix_of_byteSize_le hprefix' hprefix (Nat.le_trans hlow hhigh))
  -- What is between the two ends in a line feed, which is none of the line.
  rcases List.eq_nil_or_concat mid with rfl | ⟨more, last, rfl⟩
  · rw [List.append_nil]
  · rw [List.concat_eq_append] at hfront' hmid
    rcases hfront' with hnil | ⟨lines, hlines⟩
    · simp at hnil
    · rw [← List.append_assoc] at hlines
      obtain rfl : last = '\n' := List.singleton_inj.mp (List.append_inj_right' hlines rfl)
      exact absurd (hmid.subset (by simp)) hline

/-- What goes up to the next line feed is told by the text. -/
theorem line_eq_of_append {line line' rest rest' : List Char} (hline : '\n' ∉ line)
    (hline' : '\n' ∉ line') (hrest : rest = [] ∨ ∃ more, rest = '\n' :: more)
    (hrest' : rest' = [] ∨ ∃ more, rest' = '\n' :: more) (h : line ++ rest = line' ++ rest') :
    line = line' := by
  rw [← takeWhile_upToFeed hline hrest, h, takeWhile_upToFeed hline' hrest']

/-- There is one line with the byte at an offset. -/
theorem IsLineAt.unique {text line line' : List Char} {offset : Nat}
    (h : IsLineAt text offset line) (h' : IsLineAt text offset line') : line = line' := by
  obtain ⟨front, rest, htext, hfront, hline, hrest, hlow, hhigh, -⟩ := h
  obtain ⟨front', rest', htext', hfront', hline', hrest', hlow', hhigh', -⟩ := h'
  obtain rfl : front = front' := by
    rcases Nat.le_total (byteSize front) (byteSize front') with hle | hle
    · exact front_eq_of_le htext htext' hfront' hline hlow' hhigh hle
    · exact (front_eq_of_le htext' htext hfront hline' hlow hhigh' hle).symm
  rw [htext, List.append_assoc, List.append_assoc] at htext'
  exact line_eq_of_append hline hline' hrest hrest' (List.append_cancel_left htext')

/-- A character of a text is on a line that is split off, under the number of its line. -/
theorem exists_isLineAt {front rest : List Char} (hrest : rest ≠ []) :
    ∃ line split, IsLineAt (front ++ rest) (byteSize front) line ∧
      (splitLines (front ++ rest))[front.count '\n']? = some split ∧ trim split = trim line := by
  have hsize : byteSize front < byteSize (front ++ rest) := by
    have hpos := byteSize_pos hrest
    rw [byteSize_append]
    omega
  obtain ⟨full, part, rfl, hfull, hpart⟩ := exists_lastLine front
  obtain ⟨more, behind, rfl, hmore, hbehind⟩ := exists_upToFeed rest
  have hline : '\n' ∉ part ++ more := by simp [hpart, hmore]
  have hne : part ++ more ++ behind ≠ [] := by
    rw [List.append_assoc]
    simp [hrest]
  have hcount : (full ++ part).count '\n' = full.count '\n' := by
    rw [List.count_append, List.count_eq_zero.mpr hpart, Nat.add_zero]
  have hcut : full ++ part ++ (more ++ behind) = full ++ (part ++ more ++ behind) := by
    simp only [List.append_assoc]
  obtain ⟨split, hhead, htrim⟩ := head?_splitLines hline hbehind hne
  refine ⟨part ++ more, split, ⟨full, behind, ?_, hfull, hline, hbehind, ?_, ?_, hsize⟩, ?_, htrim⟩
  · simp only [List.append_assoc]
  · rw [byteSize_append]
    omega
  · simp only [byteSize_append]
    omega
  · rw [hcount, hcut, getElem?_splitLines hfull, hhead]

end BehaviorIndex.Text

namespace BehaviorIndex.Workspace

open Text

theorem documentation_eq_some {d : Disk} {p : Path} {text : String} (hread : d.read p = .ok text)
    {number : Nat} {line : List Char} (hline : (splitLines text.toList)[number]? = some line) :
    documentation d p number =
      some { signature := String.ofList (trim line)
             sections := Source.documentation (splitLines text.toList) number } := by
  rw [documentation, hread]
  simp [Except.toOption, hline]

/-- A declaration in a text is documented on the line that the index keeps for it: by what is on the
line where it begins, and by the comment above that line. -/
def DocumentsScan (patterns : Source.Patterns) (text : String) : Prop :=
  ∀ (d : Disk) (p : Path), d.read p = .ok text →
    ∀ (file : FileId) (i : Nat) (name : String) (offset : Nat),
      (patterns.scan .node text)[i]? = some (name, offset) →
      ∃ place line, (patterns.locate file .node text)[i]? = some (name, place) ∧
        IsLineAt text.toList offset line ∧
        documentation d p place.line.toNat =
          some { signature := String.ofList (trim line)
                 sections := Source.documentation (splitLines text.toList) place.line.toNat }

/-- **The line of a declaration.** The lines of a text have the same numbers in the index and for
its documentation. If their numbers have 32 bits, each declaration is documented on the line that
the index keeps for it. -/
theorem documentation_of_scan (patterns : Source.Patterns) (text : String) :
    NumbersAlike text.toList ∧
      (text.toList.count '\n' < UInt32.size → DocumentsScan patterns text) := by
  refine ⟨numbersAlike text.toList, fun hfew d p hread file i name offset hfound => ?_⟩
  obtain ⟨front, rest, htext, hrest, hoffset⟩ :=
    Source.Patterns.exists_of_mem_scanFrom (List.mem_of_getElem? hfound)
  replace hoffset : offset = byteSize front := hoffset.trans (Nat.zero_add _)
  obtain ⟨line, split, hline, hsplit, htrim⟩ := @exists_isLineAt front rest hrest
  have hnumber : ((LineIndex.ofText text.toList).position offset).1.toNat = front.count '\n' := by
    rw [← htext, List.count_append] at hfew
    rw [LineIndex.toNat_position_fst, ← htext, hoffset, LineIndex.counts_fst]
    exact Nat.mod_eq_of_lt (by omega)
  rw [htext] at hline hsplit
  rw [← hoffset] at hline
  rw [← hnumber] at hsplit
  let place := (LineIndex.ofText text.toList).position offset
  refine ⟨⟨file, place.1, place.2⟩, line, ?_, hline, ?_⟩
  · rw [Source.Patterns.locate, List.getElem?_map, hfound]
    rfl
  · rw [documentation_eq_some hread hsplit, htrim]

/-- A source whose lines end in different ways. -/
def endings : String := "// @brief A.\r\nclass A;\r\r\n\n/// @brief B.\nclass\nB\r"

def endingsDisk : Disk := ⟨.ofList [("/n.hpp", Disk.Entry.file endings.toUTF8)], "/"⟩

theorem documentation_of_endings :
    endings.toList.count '\n' < UInt32.size ∧
      (Source.Patterns.scan ⟨"BehaviorTree", "ID", "class"⟩ .node endings)[1]? = some ("B", 40) ∧
      (Source.Patterns.locate ⟨"BehaviorTree", "ID", "class"⟩ ⟨1⟩ .node endings)[1]? =
        some ("B", ⟨⟨1⟩, 4, 0⟩) ∧
      IsLineAt endings.toList 40 "class".toList ∧
      (documentation endingsDisk "/n.hpp" 4).map (fun n => (n.signature, n.sections.brief)) =
        some ("class", "B.") ∧
      documentation endingsDisk "/n.hpp" 4 =
        some { signature := "class"
               sections := Source.documentation (splitLines endings.toList) 4 } := by
  have hfew : endings.toList.count '\n' < UInt32.size := by decide
  have hlocate : (Source.Patterns.locate ⟨"BehaviorTree", "ID", "class"⟩ ⟨1⟩ .node endings)[1]? =
      some ("B", ⟨⟨1⟩, 4, 0⟩) := by decide +kernel
  obtain ⟨place, line, hplace, hline, hdocumentation⟩ :=
    (documentation_of_scan ⟨"BehaviorTree", "ID", "class"⟩ endings).2 hfew endingsDisk "/n.hpp"
      (by decide +kernel) ⟨1⟩ 1 "B" 40 (by decide +kernel)
  have hclass : IsLineAt endings.toList 40 "class".toList :=
    ⟨"// @brief A.\r\nclass A;\r\r\n\n/// @brief B.\n".toList, "\nB\r".toList, by decide,
      .inr ⟨"// @brief A.\r\nclass A;\r\r\n\n/// @brief B.".toList, by decide⟩, by decide,
      .inr ⟨"B\r".toList, by decide⟩, by decide, by decide, by decide⟩
  obtain rfl : line = "class".toList := hline.unique hclass
  rw [hlocate, Option.some_inj] at hplace
  obtain ⟨-, rfl⟩ := Prod.mk.inj hplace
  exact ⟨hfew, by decide +kernel, hlocate, hclass, by decide +kernel, hdocumentation⟩

/-! ### More lines than numbers -/

def classes : Source.Patterns := ⟨"BehaviorTree", "ID", "class"⟩

/-- A class behind line feeds. -/
def feeds (count : Nat) : String := String.ofList (List.replicate count '\n' ++ "class A".toList)

theorem toList_feeds (count : Nat) :
    (feeds count).toList = List.replicate count '\n' ++ "class A".toList := String.toList_ofList

theorem byteSize_replicate_feed (count : Nat) : byteSize (List.replicate count '\n') = count := by
  induction count with
  | zero => rfl
  | succ count ih =>
    rw [List.replicate_succ, byteSize, ih]
    exact Nat.add_comm 1 count

theorem scanFrom_feeds (count : Nat) (before : Option Char) (offset : Nat)
    (hbefore : isWordBoundary before (some 'c')) :
    classes.scanFrom .node before offset (List.replicate count '\n' ++ "class A".toList) =
      [("A", offset + count)] := by
  induction count generalizing before offset with
  | zero =>
    have hmatch : classes.match? .node before ('c' :: ("lass A".toList ++ [])) =
        some (['A'], []) := by
      rw [Source.Patterns.match?, List.head?_cons, if_pos hbefore]
      decide +kernel
    refine (Source.Patterns.scanFrom_of_match? hmatch).trans ?_
    rw [Source.Patterns.scanFrom]
    rfl
  | succ count ih =>
    have hnone : classes.match? .node before
        ('\n' :: (List.replicate count '\n' ++ "class A".toList)) = none := by
      rw [Source.Patterns.match?, afterPrefix?_eq_none (by simp [classes])]
      exact ite_self none
    rw [List.replicate_succ, List.cons_append,
      Source.Patterns.scanFrom_of_match?_eq_none hnone, ih _ _ (by decide), Nat.add_assoc,
      Nat.add_comm _ count]
    rfl

theorem scan_feeds (count : Nat) : classes.scan .node (feeds count) = [("A", count)] := by
  rw [Source.Patterns.scan, toList_feeds, scanFrom_feeds count none 0 (by decide), Nat.zero_add]

theorem isLineAt_feeds (count : Nat) :
    IsLineAt (feeds (count + 1)).toList (count + 1) "class A".toList := by
  have hbyte := byteSize_replicate_feed (count + 1)
  rw [toList_feeds]
  refine ⟨List.replicate (count + 1) '\n', [], by rw [List.append_nil],
    .inr ⟨_, List.replicate_succ'⟩, by decide, .inl rfl, Nat.le_of_eq hbyte, ?_, ?_⟩
  all_goals rw [byteSize_append, hbyte]
  · exact Nat.le_add_right _ _
  · exact Nat.lt_add_of_pos_right (by decide)

/-- The number of the line is cut to 32 bits. -/
theorem toNat_line_of_locate_feeds {count : Nat} {file : FileId} {name : String} {place : Location}
    (h : (classes.locate file .node (feeds count))[0]? = some (name, place)) :
    place.line.toNat = count % UInt32.size := by
  have hcounts := LineIndex.counts_fst (List.replicate count '\n') "class A".toList
  rw [byteSize_replicate_feed, List.count_replicate_self] at hcounts
  rw [Source.Patterns.locate, scan_feeds, toList_feeds] at h
  cases h
  show ((LineIndex.ofText _).position _).1.toNat = _
  rw [LineIndex.toNat_position_fst, hcounts]

/-- A disk with one source. -/
def feedsDisk (count : Nat) : Disk :=
  ⟨.ofList [("/n.hpp", Disk.Entry.file (feeds count).toUTF8)], "/"⟩

theorem read_feedsDisk (count : Nat) : (feedsDisk count).read "/n.hpp" = .ok (feeds count) := by
  have hplain : Path.Plain ["n.hpp"] := by simp [Path.Plain, Path.IsName]
  exact Disk.read_of_readBytes ((Disk.readBytes_pathOf_iff hplain).mpr ⟨⟨rfl, trivial⟩, rfl⟩)

theorem not_documentsScan_of_mod {count : Nat} (hmod : (count + 1) % UInt32.size = 0) :
    ¬ DocumentsScan classes (feeds (count + 1)) := by
  intro h
  obtain ⟨place, line, hplace, hline, hdocumentation⟩ := h (feedsDisk (count + 1)) "/n.hpp"
    (read_feedsDisk _) ⟨1⟩ 0 "A" (count + 1) (by rw [scan_feeds]; rfl)
  obtain rfl := hline.unique (isLineAt_feeds count)
  have hfirst : (splitLines (feeds (count + 1)).toList)[0]? = some [] := by
    rw [toList_feeds]
    exact congrArg (·[0]?) (splitLines_feed List.not_mem_nil _)
  rw [toNat_line_of_locate_feeds hplace, hmod, documentation_eq_some (read_feedsDisk _) hfirst,
    Option.some_inj] at hdocumentation
  have hsignature : String.ofList (trim []) = String.ofList (trim "class A".toList) :=
    congrArg NodeDocumentation.signature hdocumentation
  exact absurd hsignature (by decide +kernel)

/-- Behind as many line feeds as there are numbers, a declaration has the number of the first line,
which is blank. -/
theorem not_documentsScan_feeds : ¬ DocumentsScan classes (feeds UInt32.size) :=
  not_documentsScan_of_mod (by decide)

end BehaviorIndex.Workspace
