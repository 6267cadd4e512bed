import BehaviorIndex.Proofs.Markup.Columns
import BehaviorIndex.Proofs.Source.Order

/-!
# Locations, counted

**Theorem (`Patterns.locations_counted`).** The position of an offset is what counting gives: take
the last offset between two characters that is not beyond it, nor beyond the text; count the line
feeds among the bytes before that one, and the units behind the last of them. So positions grow with
the offsets between characters, and definitions are located in strictly increasing order, in the
file that was scanned. Neither number is larger than the text, so for a text of fewer than
`UInt32.size` bytes a position has all of them.

An offset inside a character, or beyond the text, has the position behind the longest beginning of
the text that fits in front of it (`LineIndex.counts_of_takeBytes`), because no line begins
between the two. Line feeds can be counted among the bytes as well as among the characters
(`count_bytes`), because no other character has the byte of a line feed.
-/

namespace BehaviorIndex.Text

/-! ## Bytes -/

/-- The UTF-8 form of a text. -/
def bytes (cs : List Char) : List UInt8 := cs.flatMap String.utf8EncodeChar

/-- The byte of a line feed. -/
def feedByte : UInt8 := 10

theorem length_bytes (cs : List Char) : (bytes cs).length = byteSize cs := by
  induction cs with
  | nil => rfl
  | cons c cs ih =>
    rw [bytes, List.flatMap_cons, List.length_append, String.length_utf8EncodeChar, byteSize, ← ih]
    rfl

theorem ofNat_ne_feedByte {k : Nat} (h : 128 ≤ k) (hk : k < 256) : UInt8.ofNat k ≠ feedByte := by
  intro heq
  have htoNat := congrArg UInt8.toNat heq
  rw [UInt8.toNat_ofNat', Nat.mod_eq_of_lt hk] at htoNat
  rw [htoNat] at h
  exact absurd h (by decide)

/-- Only a line feed has the byte of a line feed. -/
theorem count_feedByte (c : Char) :
    (String.utf8EncodeChar c).count feedByte = if c = '\n' then 1 else 0 := by
  have hfeed : c = '\n' ↔ c.val.toNat = 10 := Char.toNat_inj.symm
  by_cases hc : c = '\n'
  · subst hc
    rfl
  · rw [if_neg hc, List.count_eq_zero]
    rw [hfeed] at hc
    intro hmem
    unfold String.utf8EncodeChar at hmem
    simp only at hmem
    split at hmem
    · -- One byte, which is the code.
      have htoNat := congrArg UInt8.toNat (List.mem_singleton.mp hmem)
      rw [UInt8.toNat_ofNat', Nat.mod_eq_of_lt (by omega)] at htoNat
      exact hc htoNat.symm
    · -- More than one, all of them beyond ASCII.
      split at hmem
      · simp only [List.mem_cons, List.not_mem_nil, or_false] at hmem
        rcases hmem with h | h <;> exact ofNat_ne_feedByte (by omega) (by omega) h.symm
      · split at hmem
        · simp only [List.mem_cons, List.not_mem_nil, or_false] at hmem
          rcases hmem with h | h | h <;> exact ofNat_ne_feedByte (by omega) (by omega) h.symm
        · simp only [List.mem_cons, List.not_mem_nil, or_false] at hmem
          rcases hmem with h | h | h | h <;> exact ofNat_ne_feedByte (by omega) (by omega) h.symm

theorem count_bytes (cs : List Char) : (bytes cs).count feedByte = cs.count '\n' := by
  induction cs with
  | nil => rfl
  | cons c cs ih =>
    rw [bytes, List.flatMap_cons, List.count_append, count_feedByte, List.count_cons, ← ih]
    simp only [beq_iff_eq]
    exact Nat.add_comm _ _

theorem take_bytes (front rest : List Char) :
    (bytes (front ++ rest)).take (byteSize front) = bytes front := by
  rw [bytes, List.flatMap_append, ← length_bytes]
  exact List.take_left

/-! ## Positions by counting -/

/-- The longest beginning that fits ends at the last offset between characters. -/
theorem isGreatest_takeBytes (offset : Nat) (text : List Char) :
    IsGreatest {o | IsBoundary text o ∧ o ≤ min offset (byteSize text)}
      (byteSize (takeBytes offset text)) := by
  have hprefix := takeBytes_isPrefix offset text
  constructor
  · exact ⟨⟨_, hprefix, rfl⟩,
      Nat.le_min.mpr ⟨byteSize_takeBytes_le offset text, byteSize_le_byteSize hprefix⟩⟩
  · rintro o ⟨⟨front, hfront, rfl⟩, ho⟩
    exact byteSize_le_byteSize (isPrefix_takeBytes hfront (Nat.le_min.mp ho).1)

/-- The position is what counting gives at the offset `o` between two characters. -/
structure CountedAt (text : List Char) (o : Nat) (position : Nat × Nat) : Prop where
  /-- The line feeds among the bytes before the offset. -/
  line : position.1 = ((bytes text).take o).count feedByte
  /-- The units from behind the last line feed to the offset. -/
  column : ∃ front line rest, text = front ++ line ++ rest ∧ byteSize (front ++ line) = o ∧
    (front = [] ∨ ∃ lines, front = lines ++ ['\n']) ∧ '\n' ∉ line ∧ position.2 = units line
  /-- Neither number is larger than the text. -/
  line_le : position.1 ≤ byteSize text
  column_le : position.2 ≤ byteSize text

theorem LineIndex.countedAt_counts (text : List Char) (offset : Nat) :
    CountedAt text (byteSize (takeBytes offset text)) ((ofText text).counts offset) := by
  obtain ⟨front, line, htake, hfront, hline⟩ := exists_lastLine (takeBytes offset text)
  have hsplit := takeBytes_append_dropBytes offset text
  rw [htake] at hsplit
  obtain ⟨hlines, hcolumns⟩ := counts_le text offset
  refine ⟨?_, ⟨front, line, _, hsplit.symm, by rw [htake], hfront, hline, ?_⟩, hlines, hcolumns⟩
  · rw [counts_of_takeBytes htake hfront hline, htake]
    conv_rhs => rw [← hsplit]
    rw [take_bytes, count_bytes, List.count_append, List.count_eq_zero.mpr hline, Nat.add_zero]
  · rw [counts_of_takeBytes htake hfront hline]

end BehaviorIndex.Text

namespace BehaviorIndex

open Text

/-- Within a file, the order of locations is that of positions. -/
theorem Location.le_of_before {a b : Location} (hfile : a.file = b.file)
    (h : Before (toNats (a.line, a.column)) (toNats (b.line, b.column))) :
    a.le b = true ∧ a ≠ b := by
  rw [Location.le, if_pos hfile]
  rcases h with hline | ⟨hline, hcolumn⟩
  · have hlt : a.line < b.line := UInt32.lt_iff_toNat_lt.mpr hline
    have hne : a.line ≠ b.line := UInt32.ne_of_lt hlt
    rw [if_neg hne]
    exact ⟨decide_eq_true hlt, fun heq => hne (congrArg Location.line heq)⟩
  · have hlt : a.column < b.column := UInt32.lt_iff_toNat_lt.mpr hcolumn
    have hne : a.column ≠ b.column := UInt32.ne_of_lt hlt
    rw [if_pos (UInt32.toNat_inj.mp hline)]
    exact ⟨decide_eq_true (UInt32.le_of_lt hlt), fun heq => hne (congrArg Location.column heq)⟩

namespace Source.Patterns

/-- Definitions are located in strictly increasing order. -/
theorem pairwise_locate (p : Patterns) (file : FileId) (kind : Kind) {text : String}
    (hsize : byteSize text.toList < UInt32.size) :
    (p.locate file kind text).Pairwise fun a b => a.2.le b.2 = true ∧ a.2 ≠ b.2 := by
  rw [locate, List.pairwise_map]
  apply (p.pairwise_before_scan kind hsize).imp
  intro a b h
  exact Location.le_of_before rfl h

/-- **Locations are counted.** -/
theorem locations_counted {text : String} (hsize : byteSize text.toList < UInt32.size) :
    (∀ offset, ∃ o,
        IsGreatest {k | IsBoundary text.toList k ∧ k ≤ min offset (byteSize text.toList)} o ∧
          CountedAt text.toList o (toNats ((LineIndex.ofText text.toList).position offset))) ∧
      (∀ o o', IsBoundary text.toList o → IsBoundary text.toList o' → o < o' →
        Before (toNats ((LineIndex.ofText text.toList).position o))
          (toNats ((LineIndex.ofText text.toList).position o'))) ∧
      ∀ (p : Patterns) (file : FileId) (kind : Kind),
        ((p.locate file kind text).Pairwise fun a b => a.2.le b.2 = true ∧ a.2 ≠ b.2) ∧
          ∀ found ∈ p.locate file kind text, found.2.file = file := by
  refine ⟨?_, ?_, ?_⟩
  · intro offset
    refine ⟨_, isGreatest_takeBytes offset text.toList, ?_⟩
    rw [LineIndex.toNats_position hsize]
    exact LineIndex.countedAt_counts _ offset
  · rintro o o' ⟨front, hfront, rfl⟩ ⟨front', hfront', rfl⟩ hlt
    exact LineIndex.position_before hsize hfront hfront' hlt
  · intro p file kind
    exact ⟨p.pairwise_locate file kind hsize, p.file_of_mem_locate file kind text⟩

/-- A text with a character of four bytes and two units in front of a definition, and two
definitions on one line. -/
def score : String := "class A;\n𝄞 class B; class C"

/-- The offset 11 is inside the clef, which goes from 9 to 13. -/
theorem locations_counted_score :
    byteSize score.toList < UInt32.size ∧
      CountedAt score.toList 9 (toNats ((LineIndex.ofText score.toList).position 11)) ∧
      IsBoundary score.toList 9 ∧ IsBoundary score.toList 13 ∧
      Before (toNats ((LineIndex.ofText score.toList).position 9))
        (toNats ((LineIndex.ofText score.toList).position 13)) ∧
      (LineIndex.ofText score.toList).position 13 = (1, 2) ∧
      (⟨"BehaviorTree", "ID", "class"⟩ : Patterns).locate ⟨7⟩ .node score =
        [("A", ⟨⟨7⟩, 0, 0⟩), ("B", ⟨⟨7⟩, 1, 3⟩), ("C", ⟨⟨7⟩, 1, 12⟩)] := by
  have hnine : IsBoundary score.toList 9 := ⟨"class A;\n".toList, ⟨_, rfl⟩, by decide⟩
  have hthirteen : IsBoundary score.toList 13 := ⟨"class A;\n𝄞".toList, ⟨_, rfl⟩, by decide⟩
  have hsize : byteSize score.toList < UInt32.size := by decide
  obtain ⟨hcounted, hbefore, -⟩ := locations_counted hsize
  obtain ⟨o, ho, hcounted⟩ := hcounted 11
  have htake : byteSize (takeBytes 11 score.toList) = 9 := by decide
  have hgreatest := isGreatest_takeBytes 11 score.toList
  rw [htake] at hgreatest
  rw [ho.unique hgreatest] at hcounted
  exact ⟨hsize, hcounted, hnine, hthirteen, hbefore 9 13 hnine hthirteen (by decide), by decide,
    by decide +kernel⟩

end Source.Patterns

end BehaviorIndex
