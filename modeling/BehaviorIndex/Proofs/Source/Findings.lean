import BehaviorIndex.Proofs.Markup.Columns
import BehaviorIndex.Proofs.Source.Order
import BehaviorIndex.Proofs.Source.Trees
import Mathlib.Data.List.Basic

/-!
# What a scan finds

What a definition looks like is told by its text alone (`Patterns.Spells`): for a tree `<`, the tag,
blanks, the attribute, `=` and a quoted name; for a node, at a word boundary, the keyword, blanks
and an identifier. A text may hold definitions that overlap, and a shorter one at the start of a
longer one (`Patterns.Holds`).

**Theorem (`Patterns.scan_lists`).** A scan gives definitions of the text, from left to right and
without overlaps. Each is the longest that begins where it begins, and every definition of the text
begins where one begins that is given, or inside one that is given (`Patterns.Lists`).

`match?` finds a definition at the start of a text exactly if there is one (`spells_of_match?`,
`match?_of_spells`). Blanks can be part of the attribute, but the blanks before it have one length
only (`blanks_unique`), so nothing depends on the order in which `match?` tries the lengths. A scan
then either passes over a character at which no definition begins (`Lists.skip`) or goes on behind a
definition (`Lists.take`).
-/

namespace BehaviorIndex.Source

open Text Markup

/-! ## Parts of a definition -/

theorem quotedName?_eq_some {cs name rest : List Char} (h : quotedName? cs = some (name, rest)) :
    ∃ q q', cs = q :: (name ++ q' :: rest) ∧ isQuote q = true ∧ isQuote q' = true ∧ name ≠ [] ∧
      ∀ c ∈ name, isQuote c = false := by
  cases cs with
  | nil => cases h
  | cons q cs =>
    rw [quotedName?] at h
    have hsplit := List.takeWhile_append_dropWhile (p := (!isQuote ·)) (l := cs)
    have hname : ∀ c ∈ cs.takeWhile (!isQuote ·), isQuote c = false := fun c hc => by
      simpa using of_mem_takeWhile hc
    have hstop : Stops (!isQuote ·) (cs.dropWhile (!isQuote ·)) := stops_dropWhile
    split at h
    · next hq =>
      split at h
      · cases h
      · next q' rest' hdrop hne =>
        cases h
        rw [hdrop] at hsplit hstop
        refine ⟨q, q', by rw [hsplit], hq, by simpa using hstop q' rfl, fun hnil => ?_, hname⟩
        exact hne hnil
      · cases h
    · cases h

theorem identifier?_eq_some {cs name rest : List Char} (h : identifier? cs = some (name, rest)) :
    ∃ c more, cs = name ++ rest ∧ name = c :: more ∧ isIdentifierStart c = true ∧
      ∀ d ∈ more, isWord d = true := by
  cases cs with
  | nil => cases h
  | cons c cs =>
    rw [identifier?] at h
    split at h
    · next hc =>
      cases h
      refine ⟨c, _, ?_, rfl, hc, fun d hd => of_mem_takeWhile hd⟩
      rw [List.cons_append, List.takeWhile_append_dropWhile]
    · cases h

/-- The identifier goes on to the last word character. -/
theorem identifier?_append {c : Char} {more : List Char} (hc : isIdentifierStart c = true)
    (hmore : ∀ d ∈ more, isWord d = true) (rest : List Char) :
    identifier? (c :: more ++ rest) =
      some (c :: more ++ rest.takeWhile isWord, rest.dropWhile isWord) := by
  rw [List.cons_append, identifier?, if_pos hc, List.takeWhile_append_of_pos hmore,
    List.dropWhile_append_of_pos hmore, List.cons_append]

theorem not_isBlank_of_isIdentifierStart {c : Char} (h : isIdentifierStart c = true) :
    isBlank c = false := by
  refine not_isBlank_of_isNameChar (isNameChar_of_isNameStart ?_)
  exact h

theorem isSome_afterBlanks? {α : Type} {k : List Char → Option α} {blanks rest : List Char}
    (hne : blanks ≠ []) (hblanks : ∀ c ∈ blanks, isBlank c = true) (hk : (k rest).isSome = true) :
    (afterBlanks? k (blanks ++ rest)).isSome = true := by
  induction blanks with
  | nil => exact absurd rfl hne
  | cons c blanks ih =>
    obtain ⟨hc, hblanks⟩ := List.forall_mem_cons.mp hblanks
    rw [List.cons_append, afterBlanks?, if_pos hc, Option.isSome_or]
    cases blanks with
    | nil => simp [hk]
    | cons d blanks => rw [ih (List.cons_ne_nil _ _) hblanks, Bool.true_or]

/-- The blanks before a word and an equals sign are told by the text, even if the word begins with
blanks. -/
theorem blanks_unique {word blanks blanks' value value' : List Char}
    (hblanks : ∀ c ∈ blanks, isBlank c = true) (hblanks' : ∀ c ∈ blanks', isBlank c = true)
    (h : blanks ++ (word ++ '=' :: value) = blanks' ++ (word ++ '=' :: value')) :
    value = value' := by
  -- The blanks of the word itself do not depend on the value.
  have hword : ∀ value, (word ++ '=' :: value).takeWhile isBlank =
      (word ++ ['=']).takeWhile isBlank := by
    intro value
    have hequals : ∀ rest, ('=' :: rest).takeWhile isBlank = [] := fun rest =>
      List.takeWhile_cons_of_neg (by decide)
    rw [List.takeWhile_append, List.takeWhile_append, hequals, hequals]
  have htake := congrArg (List.takeWhile isBlank) h
  rw [List.takeWhile_append_of_pos hblanks, List.takeWhile_append_of_pos hblanks', hword value,
    hword value'] at htake
  rw [List.append_cancel_right htake] at h
  exact (List.cons.inj (List.append_cancel_left (List.append_cancel_left h))).2

/-- An attribute name with an equals sign and a quoted name is found behind blanks. -/
theorem afterBlanks?_attribute {word blanks value : List Char} {found : List Char × List Char}
    (hne : blanks ≠ []) (hblanks : ∀ c ∈ blanks, isBlank c = true)
    (hvalue : quotedName? value = some found) :
    afterBlanks? (fun cs => (afterPrefix? (word ++ ['=']) cs).bind quotedName?)
      (blanks ++ (word ++ '=' :: value)) = some found := by
  have hword : ∀ value, afterPrefix? (word ++ ['=']) (word ++ '=' :: value) = some value := by
    intro value
    rw [afterPrefix?_eq_some_iff, List.append_assoc, List.singleton_append]
  have hhere : ((afterPrefix? (word ++ ['=']) (word ++ '=' :: value)).bind quotedName?).isSome =
      true := by
    rw [hword, Option.bind_some, hvalue]
    rfl
  obtain ⟨found', hfound⟩ := Option.isSome_iff_exists.mp (isSome_afterBlanks?
    (k := fun cs => (afterPrefix? (word ++ ['=']) cs).bind quotedName?) hne hblanks hhere)
  obtain ⟨blanks', next, hsplit, -, hblanks', hnext⟩ := afterBlanks?_eq_some hfound
  obtain ⟨value', hvalue', hquoted⟩ := Option.bind_eq_some_iff.mp hnext
  rw [afterPrefix?_eq_some_iff, List.append_assoc, List.singleton_append] at hvalue'
  rw [hvalue'] at hsplit
  rw [← blanks_unique hblanks hblanks' hsplit, hvalue] at hquoted
  rw [hfound, hquoted]

namespace Patterns

/-! ## Definitions in a text -/

/-- The text of a tree with a name. -/
def SpellsTree (p : Patterns) (name matched : List Char) : Prop :=
  ∃ blanks q q', matched = '<' :: (p.entityTag.toList ++
      (blanks ++ (p.idAttribute.toList ++ '=' :: q :: (name ++ [q'])))) ∧
    blanks ≠ [] ∧ (∀ c ∈ blanks, isBlank c = true) ∧ isQuote q = true ∧ isQuote q' = true ∧
    name ≠ [] ∧ ∀ c ∈ name, isQuote c = false

/-- The text of a node with a name. -/
def SpellsNode (p : Patterns) (name matched : List Char) : Prop :=
  ∃ blanks c more, matched = p.keyword.toList ++ (blanks ++ name) ∧
    blanks ≠ [] ∧ (∀ c ∈ blanks, isBlank c = true) ∧ name = c :: more ∧
    isIdentifierStart c = true ∧ ∀ d ∈ more, isWord d = true

/-- A definition stands between `front` and `rest`. -/
def Spells (p : Patterns) (kind : Kind) (front matched rest name : List Char) : Prop :=
  match kind with
  | .tree => p.SpellsTree name matched
  | .node =>
    isWordBoundary front.getLast? (matched ++ rest).head? = true ∧ p.SpellsNode name matched

/-- A definition: its name, and the offsets at which it begins and ends. -/
structure Finding where
  name : String
  start : Nat
  stop : Nat

/-- The definition is one of the text. -/
def Holds (p : Patterns) (kind : Kind) (text : List Char) (f : Finding) : Prop :=
  ∃ front matched rest, text = front ++ (matched ++ rest) ∧
    p.Spells kind front matched rest f.name.toList ∧
    f.start = byteSize front ∧ f.stop = byteSize front + byteSize matched

/-- The definitions of the text from `offset` on, taken from left to right, each as long as can be
and without overlaps. -/
structure Lists (p : Patterns) (kind : Kind) (text : List Char) (offset : Nat)
    (found : List Finding) : Prop where
  holds : ∀ f ∈ found, p.Holds kind text f ∧ offset ≤ f.start
  longest : ∀ f ∈ found, ∀ g, p.Holds kind text g → g.start = f.start →
    g.name.toList <+: f.name.toList ∧ g.stop ≤ f.stop
  apart : found.Pairwise fun f g => f.stop ≤ g.start
  complete : ∀ g, p.Holds kind text g → offset ≤ g.start →
    (∃ f ∈ found, f.start = g.start) ∨ ∃ f ∈ found, f.start < g.start ∧ g.start < f.stop

/-! ## The start of a text -/

section

variable {p : Patterns} {kind : Kind} {front cs matched name rest : List Char}

/-- What `match?` finds is a definition. -/
theorem spells_of_match? (h : p.match? kind front.getLast? cs = some (name, rest)) :
    ∃ matched, cs = matched ++ rest ∧ p.Spells kind front matched rest name := by
  cases kind with
  | tree =>
    obtain ⟨behind, htag, -⟩ := Option.bind_eq_some_iff.mp h
    rw [afterPrefix?_eq_some_iff, List.cons_append] at htag
    subst htag
    obtain ⟨blanks, value, hcs, hne, hblanks, hvalue⟩ := match?_tree_eq_some h
    obtain ⟨q, q', rfl, hq, hq', hname, hplain⟩ := quotedName?_eq_some hvalue
    refine ⟨'<' :: (p.entityTag.toList ++ (blanks ++ (p.idAttribute.toList ++
      '=' :: q :: (name ++ [q'])))), ?_, blanks, q, q', rfl, hne, hblanks, hq, hq', hname, hplain⟩
    rw [hcs]
    simp
  | node =>
    rw [match?] at h
    split at h
    · next hboundary =>
      obtain ⟨behind, hkeyword, h⟩ := Option.bind_eq_some_iff.mp h
      obtain ⟨blanks, next, rfl, hne, hblanks, hname⟩ := afterBlanks?_eq_some h
      obtain ⟨c, more, rfl, rfl, hc, hmore⟩ := identifier?_eq_some hname
      rw [afterPrefix?_eq_some_iff] at hkeyword
      have hcs : cs = p.keyword.toList ++ (blanks ++ (c :: more)) ++ rest := by
        rw [hkeyword]
        simp
      exact ⟨_, hcs, hcs ▸ hboundary, blanks, c, more, rfl, hne, hblanks, rfl, hc, hmore⟩
    · cases h

/-- Where a definition begins, `match?` finds one at least as long. -/
theorem match?_of_spells (h : p.Spells kind front matched rest name) :
    ∃ name' rest', p.match? kind front.getLast? (matched ++ rest) = some (name', rest') ∧
      name <+: name' ∧ rest' <:+ rest := by
  cases kind with
  | tree =>
    obtain ⟨blanks, q, q', rfl, hne, hblanks, hq, hq', hname, hplain⟩ := h
    have hvalue : quotedName? (q :: (name ++ q' :: rest)) = some (name, rest) :=
      quotedName?_append hq hq' hname hplain
    refine ⟨name, rest, ?_, List.prefix_rfl, List.suffix_rfl⟩
    refine Option.bind_eq_some_iff.mpr ⟨_, afterPrefix?_eq_some_iff.mpr ?_,
      afterBlanks?_attribute hne hblanks hvalue⟩
    simp
  | node =>
    obtain ⟨hboundary, blanks, c, more, rfl, hne, hblanks, rfl, hc, hmore⟩ := h
    refine ⟨c :: more ++ rest.takeWhile isWord, rest.dropWhile isWord, ?_, List.prefix_append _ _,
      List.dropWhile_suffix isWord⟩
    rw [match?, if_pos hboundary]
    refine Option.bind_eq_some_iff.mpr ⟨_, afterPrefix?_eq_some_iff.mpr ?_,
      afterBlanks?_append hne hblanks (stops_cons (not_isBlank_of_isIdentifierStart hc))
        (identifier?_append hc hmore rest)⟩
    simp

end

/-! ## One step of a scan -/

section

variable {p : Patterns} {kind : Kind} {front cs : List Char} {found : List Finding} {g : Finding}

/-- A definition that begins behind `front` is spelled there. -/
theorem Holds.spells (h : p.Holds kind (front ++ cs) g) (hstart : g.start = byteSize front) :
    ∃ matched rest, cs = matched ++ rest ∧ p.Spells kind front matched rest g.name.toList ∧
      g.stop = byteSize front + byteSize matched := by
  obtain ⟨front', matched, rest, hsplit, hspells, hstart', hstop⟩ := h
  rw [hstart] at hstart'
  have hprefix : front <+: front ++ cs := List.prefix_append _ _
  have hprefix' : front' <+: front ++ cs := hsplit ▸ List.prefix_append _ _
  obtain rfl : front = front' :=
    (prefix_of_byteSize_le hprefix hprefix' (Nat.le_of_eq hstart')).eq_of_length_le
      (prefix_of_byteSize_le hprefix' hprefix (Nat.le_of_eq hstart'.symm)).length_le
  exact ⟨matched, rest, List.append_cancel_left hsplit, hspells, hstop⟩

theorem Spells.ne_nil {matched rest name : List Char}
    (h : p.Spells kind front matched rest name) : matched ≠ [] := by
  cases kind with
  | tree =>
    obtain ⟨blanks, q, q', rfl, -⟩ := h
    exact List.cons_ne_nil _ _
  | node =>
    obtain ⟨-, blanks, c, more, rfl, -, -, rfl, -⟩ := h
    simp

/-- A definition that begins behind `front`, but not directly, leaves out a character. -/
theorem Holds.le_start {c : Char} (h : p.Holds kind (front ++ c :: cs) g)
    (hstart : byteSize front < g.start) : byteSize (front ++ [c]) ≤ g.start := by
  obtain ⟨front', matched, rest, hsplit, -, hstart', -⟩ := h
  rw [hstart'] at hstart ⊢
  have hfront' : front' <+: front ++ c :: cs := hsplit ▸ List.prefix_append _ _
  obtain ⟨more, rfl⟩ : front <+: front' :=
    prefix_of_byteSize_le (List.prefix_append _ _) hfront' (Nat.le_of_lt hstart)
  rw [List.append_assoc] at hsplit
  cases more with
  | nil => simp at hstart
  | cons d more =>
    obtain ⟨rfl, -⟩ := List.cons.inj (List.append_cancel_left hsplit)
    exact byteSize_le_byteSize ((List.prefix_append_right_inj front).mpr ⟨more, rfl⟩)

/-- Nothing begins behind the end of the text. -/
theorem lists_nil (p : Patterns) (kind : Kind) (front : List Char) :
    p.Lists kind front (byteSize front) [] where
  holds _ hf := nomatch hf
  longest _ hf := nomatch hf
  apart := .nil
  complete g hg hstart := by
    obtain ⟨front', matched, rest, rfl, hspells, hstart', -⟩ := hg
    have hpos := byteSize_pos hspells.ne_nil
    rw [byteSize_append, byteSize_append] at hstart
    omega

/-- **Passing over a character.** -/
theorem Lists.skip {c : Char} (hmatch : p.match? kind front.getLast? (c :: cs) = none)
    (h : p.Lists kind (front ++ c :: cs) (byteSize (front ++ [c])) found) :
    p.Lists kind (front ++ c :: cs) (byteSize front) found where
  holds f hf := by
    obtain ⟨hholds, hstart⟩ := h.holds f hf
    rw [byteSize_append] at hstart
    exact ⟨hholds, by omega⟩
  longest := h.longest
  apart := h.apart
  complete g hg hstart := by
    rcases Nat.eq_or_lt_of_le hstart with heq | hlt
    · -- A definition that begins here would have been found.
      obtain ⟨matched, rest, hcs, hspells, -⟩ := hg.spells heq.symm
      obtain ⟨name', rest', hsome, -⟩ := match?_of_spells hspells
      rw [← hcs, hmatch] at hsome
      cases hsome
    · exact h.complete g hg (hg.le_start hlt)

/-- **Taking a definition.** -/
theorem Lists.take {matched name rest : List Char}
    (hmatch : p.match? kind front.getLast? (matched ++ rest) = some (name, rest))
    (h : p.Lists kind (front ++ (matched ++ rest)) (byteSize front + byteSize matched) found) :
    p.Lists kind (front ++ (matched ++ rest)) (byteSize front)
      (⟨String.ofList name, byteSize front, byteSize front + byteSize matched⟩ :: found) where
  holds := by
    refine List.forall_mem_cons.mpr ⟨⟨?_, Nat.le_refl _⟩, fun f hf => ?_⟩
    · obtain ⟨matched', hmatched, hspells⟩ := spells_of_match? hmatch
      obtain rfl := List.append_cancel_right hmatched
      refine ⟨front, matched, rest, rfl, ?_, rfl, rfl⟩
      rwa [String.toList_ofList]
    · obtain ⟨hholds, hstart⟩ := h.holds f hf
      exact ⟨hholds, Nat.le_of_add_right_le hstart⟩
  longest := by
    refine List.forall_mem_cons.mpr ⟨fun g hg hstart => ?_, h.longest⟩
    obtain ⟨matched', rest', hsplit, hspells, hstop⟩ := hg.spells hstart
    obtain ⟨name', rest'', hmatch', hname, more, rfl⟩ := match?_of_spells hspells
    rw [← hsplit, hmatch] at hmatch'
    cases hmatch'
    have hsize := congrArg byteSize hsplit
    simp only [byteSize_append] at hsize
    refine ⟨by rwa [String.toList_ofList], ?_⟩
    show g.stop ≤ byteSize front + byteSize matched
    omega
  apart := by
    refine List.pairwise_cons.mpr ⟨fun f hf => ?_, h.apart⟩
    exact (h.holds f hf).2
  complete g hg hstart := by
    rcases Nat.eq_or_lt_of_le hstart with heq | hlt
    · exact .inl ⟨_, List.mem_cons_self, heq⟩
    · by_cases hinside : g.start < byteSize front + byteSize matched
      · exact .inr ⟨_, List.mem_cons_self, hlt, hinside⟩
      · rcases h.complete g hg (Nat.le_of_not_lt hinside) with ⟨f, hf, hsame⟩ | ⟨f, hf, hinner⟩
        · exact .inl ⟨f, List.mem_cons_of_mem _ hf, hsame⟩
        · exact .inr ⟨f, List.mem_cons_of_mem _ hf, hinner⟩

end

/-! ## The whole scan -/

/-- **A scan.** From behind `front` on, a scan gives the definitions of the text. -/
theorem scanFrom_lists (p : Patterns) (kind : Kind) (front cs : List Char) :
    ∃ found, p.scanFrom kind front.getLast? (byteSize front) cs =
        found.map (fun f => (f.name, f.start)) ∧
      p.Lists kind (front ++ cs) (byteSize front) found := by
  match cs with
  | [] => exact ⟨[], by rw [scanFrom]; rfl, by simpa using lists_nil p kind front⟩
  | c :: cs =>
    cases hmatch : p.match? kind front.getLast? (c :: cs) with
    | none =>
      obtain ⟨found, hscan, hlists⟩ := scanFrom_lists p kind (front ++ [c]) cs
      rw [List.append_assoc, List.singleton_append] at hlists
      refine ⟨found, ?_, hlists.skip hmatch⟩
      rw [scanFrom_of_match?_eq_none hmatch, ← hscan, List.getLast?_concat, byteSize_append]
      rfl
    | some result =>
      obtain ⟨name, rest⟩ := result
      obtain ⟨matched, hcs, hspells⟩ := spells_of_match? hmatch
      obtain ⟨d, behind, rfl⟩ := List.exists_cons_of_ne_nil hspells.ne_nil
      obtain ⟨rfl, rfl⟩ := List.cons.inj (hcs.trans (List.cons_append ..))
      have hshorter : rest.length < (c :: (behind ++ rest)).length := length_of_match? hmatch
      obtain ⟨found, hscan, hlists⟩ := scanFrom_lists p kind (front ++ c :: behind) rest
      rw [List.append_assoc, byteSize_append] at hlists
      refine ⟨_, ?_, hlists.take hmatch⟩
      rw [scanFrom_of_match? hmatch, List.map_cons, ← hscan, List.getLast?_append_cons,
        byteSize_append]
termination_by cs.length

/-- **A scan is sound and complete.** -/
theorem scan_lists (p : Patterns) (kind : Kind) (text : String) :
    ∃ found, p.scan kind text = found.map (fun f => (f.name, f.start)) ∧
      (p.scan kind text).Pairwise (fun a b => a.2 < b.2) ∧ p.Lists kind text.toList 0 found := by
  obtain ⟨found, hscan, hlists⟩ := scanFrom_lists p kind [] text.toList
  exact ⟨found, hscan, p.pairwise_scanFrom kind none 0 text.toList, hlists⟩

/-- The second keyword is the name behind the first, and is not looked at again. -/
example : scan ⟨"T", "i", "class"⟩ .node "class class A" = [("class", 0)] := by decide +kernel

end Patterns

end BehaviorIndex.Source
