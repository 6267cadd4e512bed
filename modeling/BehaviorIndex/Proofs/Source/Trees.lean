import BehaviorIndex.Proofs.Markup.Entities
import BehaviorIndex.Proofs.Markup.Escape
import BehaviorIndex.Proofs.Source.Order

/-!
# Trees in the text and in the document

Trees are found in two ways: in the raw text, by the look of their start tags (`Patterns.scan`), and
in the tree of a document, by their tag and attribute (`Node.entities`).

**Theorem (`Patterns.scan_tree_of_parse`).** In a plain document whose entities are written with the
identifying attribute first, the scan finds the entities in document order, each at its `<`. So it
finds the same names as a search in the tree.

In such a document every `<` before a name begins a start tag (`Markup.Regular`). A tag that the
scan takes for a tree has the identifying attribute, because the grammar leaves it no other way to
go on behind the blanks. A tag that has the attribute is taken for a tree, because it is written so
(`Patterns.Leads`). What the scan takes holds no further `<`, so it misses none.
-/

namespace BehaviorIndex

open Text Markup

namespace Source

/-! ## Blanks -/

theorem isBlank_of_isSpace {c : Char} (h : isSpace c = true) : isBlank c = true := by
  simp only [isSpace, Bool.or_eq_true, beq_iff_eq] at h
  rcases h with ((rfl | rfl) | rfl) | rfl <;> decide

theorem toNat_of_isAlphanum {c : Char} (h : c.isAlphanum = true) :
    48 ≤ c.toNat ∧ c.toNat ≤ 57 ∨ 65 ≤ c.toNat ∧ c.toNat ≤ 90 ∨ 97 ≤ c.toNat ∧ c.toNat ≤ 122 := by
  rcases (Bool.or_eq_true ..).mp h with h | h
  · rcases (Bool.or_eq_true ..).mp h with h | h
    · exact .inr (.inl (of_decide_eq_true h))
    · obtain ⟨hlow, hhigh⟩ := (Bool.and_eq_true ..).mp h
      exact .inr (.inr ⟨of_decide_eq_true hlow, of_decide_eq_true hhigh⟩)
  · obtain ⟨hlow, hhigh⟩ := (Bool.and_eq_true ..).mp h
    exact .inl ⟨of_decide_eq_true hlow, of_decide_eq_true hhigh⟩

theorem not_isBlank_of_isNameChar {c : Char} (h : isNameChar c = true) : isBlank c = false := by
  simp only [isNameChar, Bool.or_eq_true, beq_iff_eq] at h
  rcases h with ((((h | rfl) | rfl) | rfl) | rfl) | rfl
  · have := toNat_of_isAlphanum h
    simp only [isBlank, blankRanges, List.any_cons, List.any_nil, Bool.or_false,
      Bool.or_eq_false_iff, Bool.and_eq_false_iff, decide_eq_false_iff_not]
    omega
  all_goals decide

section

variable {α : Type} {k : List Char → Option α} {x : α} {blanks cs rest : List Char}

theorem afterBlanks?_eq_some (h : afterBlanks? k cs = some x) :
    ∃ blanks rest, cs = blanks ++ rest ∧ blanks ≠ [] ∧ (∀ c ∈ blanks, isBlank c = true) ∧
      k rest = some x := by
  induction cs with
  | nil => cases h
  | cons c cs ih =>
    rw [afterBlanks?] at h
    split at h
    · next hc =>
      rcases Option.or_eq_some_iff.mp h with h | ⟨-, h⟩
      · obtain ⟨blanks, rest, rfl, -, hblanks, hk⟩ := ih h
        exact ⟨c :: blanks, rest, rfl, by simp, List.forall_mem_cons.mpr ⟨hc, hblanks⟩, hk⟩
      · exact ⟨[c], cs, rfl, by simp, by simpa using hc, h⟩
    · cases h

theorem afterBlanks?_append (hne : blanks ≠ []) (hblanks : ∀ c ∈ blanks, isBlank c = true)
    (hrest : Stops isBlank rest) (hk : k rest = some x) :
    afterBlanks? k (blanks ++ rest) = some x := by
  have hnone : afterBlanks? k rest = none := by
    cases rest with
    | nil => rfl
    | cons c rest => simp [afterBlanks?, hrest c rfl]
  induction blanks with
  | nil => exact absurd rfl hne
  | cons c blanks ih =>
    obtain ⟨hc, hblanks⟩ := List.forall_mem_cons.mp hblanks
    rw [List.cons_append, afterBlanks?, if_pos hc]
    cases blanks with
    | nil => simp [hnone, hk]
    | cons d blanks =>
      rw [ih (by simp) hblanks]
      rfl

end

theorem quotedName?_append {q q' : Char} {name rest : List Char} (hq : isQuote q = true)
    (hq' : isQuote q' = true) (hne : name ≠ []) (hname : ∀ c ∈ name, isQuote c = false) :
    quotedName? (q :: (name ++ q' :: rest)) = some (name, rest) := by
  have hrun : ∀ c ∈ name, (!isQuote c) = true := fun c hc => by simp [hname c hc]
  have hstop : Stops (!isQuote ·) (q' :: rest) := stops_cons (by simp [hq'])
  rw [quotedName?, if_pos hq, takeWhile_append_of_stops hrun hstop,
    dropWhile_append_of_stops hrun hstop]
  obtain ⟨c, cs, rfl⟩ := List.exists_cons_of_ne_nil hne
  rfl

/-! ## The first attribute of a tag -/

theorem skipSpace_cons_of_isSpace {c : Char} (hc : isSpace c = true) (cs : List Char) :
    skipSpace (c :: cs) = skipSpace cs :=
  List.dropWhile_cons_of_pos hc

theorem eq_skipSpace_of_space? {cs rest : List Char} (h : space? cs = some rest) :
    rest = skipSpace cs := by
  cases cs with
  | nil => cases h
  | cons c cs =>
    rw [space?] at h
    split at h
    · next hc =>
      cases h
      exact (skipSpace_cons_of_isSpace hc cs).symm
    · cases h

/-- Behind the space of some blanks comes a blank that is not space, or what follows the blanks. -/
theorem skipSpace_blanks {blanks next : List Char} (hblanks : ∀ c ∈ blanks, isBlank c = true)
    (hnext : Stops isSpace next) :
    skipSpace (blanks ++ next) = next ∨
      ∃ c rest, skipSpace (blanks ++ next) = c :: rest ∧ isBlank c = true := by
  induction blanks with
  | nil => exact .inl (skipSpace_of_stops hnext)
  | cons c blanks ih =>
    obtain ⟨hc, hblanks⟩ := List.forall_mem_cons.mp hblanks
    rw [List.cons_append]
    by_cases hspace : isSpace c = true
    · rw [skipSpace_cons_of_isSpace hspace]
      exact ih hblanks
    · rw [skipSpace_of_stops (stops_cons (by simpa using hspace))]
      exact .inr ⟨c, _, rfl, hc⟩

/-- A start tag in which blanks and an attribute name with an equals sign follow the tag name has
that attribute first. -/
theorem attributes_of_startTag? {blanks value : List Char} {id : String} {rest : List Char}
    (hblanks : ∀ c ∈ blanks, isBlank c = true) (hid : IsName id)
    (hend : skipSpace (attributes (blanks ++ (id.toList ++ '=' :: value))).2 = '/' :: '>' :: rest ∨
      skipSpace (attributes (blanks ++ (id.toList ++ '=' :: value))).2 = '>' :: rest) :
    ∃ raw behind, quoted? (· == '<') (skipSpace value) = some (raw, behind) ∧
      (attributes (blanks ++ (id.toList ++ '=' :: value))).1 =
        (id, String.ofList (decode raw)) :: (attributes behind).1 := by
  have hstop : Stops isSpace (id.toList ++ '=' :: value) := by
    obtain ⟨c, cs, hname, hc, -⟩ := hid
    rw [hname]
    exact stops_cons (not_isSpace_of_isNameChar (isNameChar_of_isNameStart hc))
  have hskip := skipSpace_blanks hblanks hstop
  -- Without attributes the tag would have to end where a blank or the name is.
  have hsome : attributes (blanks ++ (id.toList ++ '=' :: value)) ≠
      ([], blanks ++ (id.toList ++ '=' :: value)) := by
    intro hnone
    rw [hnone] at hend
    rcases hskip with hskip | ⟨d, tail, hskip, hd⟩
    · obtain ⟨c, cs, hname, hc, -⟩ := hid
      rw [hskip, hname] at hend
      rcases hend with h | h <;> rw [(List.cons.inj h).1] at hc <;> exact absurd hc (by decide)
    · rw [hskip] at hend
      rcases hend with h | h <;> rw [(List.cons.inj h).1] at hd <;> exact absurd hd (by decide)
  cases hs : space? (blanks ++ (id.toList ++ '=' :: value)) with
  | none => exact absurd (attributes_of_space?_eq_none hs) hsome
  | some r =>
    cases ha : attribute? r with
    | none => exact absurd (attributes_of_attribute?_eq_none hs ha) hsome
    | some read =>
      obtain ⟨a, behind⟩ := read
      rw [attributes_of_attribute? hs ha]
      rw [eq_skipSpace_of_space? hs] at ha
      obtain ⟨name, tail, value', raw, hname, hvalue, hraw, rfl⟩ := attribute?_eq_some ha
      rcases hskip with hskip | ⟨d, rest, hskip, hd⟩
      · rw [hskip, name?_append hid (stops_cons (by decide))] at hname
        cases hname
        rw [skipSpace_of_stops (stops_cons (by decide))] at hvalue
        cases hvalue
        exact ⟨raw, behind, hraw, by rw [String.ofList_toList]⟩
      · rw [hskip, name?] at hname
        split at hname
        · next hstart =>
          have := not_isBlank_of_isNameChar (isNameChar_of_isNameStart hstart)
          exact absurd hd (by simp [this])
        · cases hname

/-- A start tag that begins with a tag name, blanks, and an attribute name with an equals sign has
that tag name, and that attribute first. -/
theorem startTag?_of_blanks {tag id : String} (htag : IsTagName tag) (hid : IsName id)
    {blanks value after : List Char} {t : StartTag} (hne : blanks ≠ [])
    (hblanks : ∀ c ∈ blanks, isBlank c = true)
    (h : startTag? (tag.toList ++ (blanks ++ (id.toList ++ '=' :: value))) = some (t, after)) :
    t.tag = tag.toList ∧ ∃ raw behind,
      quoted? (· == '<') (skipSpace value) = some (raw, behind) ∧
      t.attributes = (id, String.ofList (decode raw)) :: (attributes behind).1 := by
  obtain ⟨behind, hname, hattributes, hend⟩ := startTag?_eq_some h
  have hstop : Stops isNameChar (blanks ++ (id.toList ++ '=' :: value)) := by
    obtain ⟨b, bs, rfl⟩ := List.exists_cons_of_ne_nil hne
    refine stops_cons (Bool.not_eq_true _ ▸ fun hb => ?_)
    exact absurd (hblanks b List.mem_cons_self) (by simp [not_isBlank_of_isNameChar hb])
  rw [tagName?_append htag hstop] at hname
  obtain ⟨htag, rfl⟩ := Prod.mk.inj (Option.some_inj.mp hname)
  rw [hattributes]
  exact ⟨htag.symm, attributes_of_startTag? hblanks hid hend⟩

namespace Patterns

variable {p : Patterns} {cs after : List Char} {t : StartTag}

/-- What the scan takes for a tree: the tag, blanks, the attribute, an equals sign, a quoted
name. -/
theorem match?_tree_eq_some {before : Option Char} {found : List Char × List Char}
    (h : p.match? .tree before ('<' :: cs) = some found) :
    ∃ blanks value, cs = p.entityTag.toList ++ (blanks ++ (p.idAttribute.toList ++ '=' :: value)) ∧
      blanks ≠ [] ∧ (∀ c ∈ blanks, isBlank c = true) ∧ quotedName? value = some found := by
  obtain ⟨behind, htag, h⟩ := Option.bind_eq_some_iff.mp h
  obtain ⟨blanks, next, rfl, hne, hblanks, h⟩ := afterBlanks?_eq_some h
  obtain ⟨value, hid, hvalue⟩ := Option.bind_eq_some_iff.mp h
  rw [afterPrefix?_eq_some_iff] at htag hid
  refine ⟨blanks, value, ?_, hne, hblanks, hvalue⟩
  rw [List.cons_append] at htag
  rw [(List.cons.inj htag).2, hid, List.append_assoc, List.singleton_append]

/-- A start tag that the scan takes for a tree is that of an entity. -/
theorem isSome_nameOf?_of_match? (htag : IsTagName p.entityTag) (hid : IsName p.idAttribute)
    (hstart : startTag? cs = some (t, after)) {before : Option Char}
    {found : List Char × List Char} (h : p.match? .tree before ('<' :: cs) = some found) :
    (nameOf? p.entityTag p.idAttribute t.opening).isSome = true := by
  obtain ⟨blanks, value, rfl, hne, hblanks, -⟩ := match?_tree_eq_some h
  obtain ⟨hname, raw, behind, -, hattributes⟩ := startTag?_of_blanks htag hid hne hblanks hstart
  simp [nameOf?, StartTag.opening, hname, hattributes]

/-- The start tag whose `<` stands before `cs` begins with the identifying attribute, written
directly before its value, and the value is not empty and holds neither a quote nor an ampersand. -/
def Leads (p : Patterns) (cs : List Char) : Prop :=
  ∃ spaces q value rest,
    cs = p.entityTag.toList ++
      (spaces ++ (p.idAttribute.toList ++ '=' :: q :: (value ++ q :: rest))) ∧
    spaces ≠ [] ∧ (∀ c ∈ spaces, isSpace c = true) ∧ isQuote q = true ∧
    value ≠ [] ∧ ∀ c ∈ value, isQuote c = false ∧ c ≠ '&'

/-- The scan takes a tag that begins with the identifying attribute for a tree of that name. -/
theorem match?_tree_of_leads (hid : IsName p.idAttribute) {spaces value rest : List Char} {q : Char}
    (hne : spaces ≠ []) (hspaces : ∀ c ∈ spaces, isSpace c = true) (hq : isQuote q = true)
    (hvalue : value ≠ []) (hplain : ∀ c ∈ value, isQuote c = false) (before : Option Char) :
    p.match? .tree before ('<' :: (p.entityTag.toList ++ (spaces ++ (p.idAttribute.toList ++
      '=' :: q :: (value ++ q :: rest))))) = some (value, rest) := by
  have hlit : afterPrefix? (p.idAttribute.toList ++ ['=']) (p.idAttribute.toList ++
      '=' :: q :: (value ++ q :: rest)) = some (q :: (value ++ q :: rest)) := by
    rw [afterPrefix?_eq_some_iff]
    simp
  have hstop : Stops isBlank (p.idAttribute.toList ++ '=' :: q :: (value ++ q :: rest)) := by
    obtain ⟨c, cs, hname, hc, -⟩ := hid
    rw [hname]
    exact stops_cons (not_isBlank_of_isNameChar (isNameChar_of_isNameStart hc))
  refine Option.bind_eq_some_iff.mpr ⟨_, afterPrefix?_eq_some_iff.mpr rfl, ?_⟩
  refine afterBlanks?_append hne (fun c hc => isBlank_of_isSpace (hspaces c hc)) hstop ?_
  rw [hlit]
  exact quotedName?_append hq hq hvalue hplain

theorem append_cons_inj {q : Char} {xs ys xs' ys' : List Char} (h : xs ++ q :: ys = xs' ++ q :: ys')
    (hxs : q ∉ xs) (hxs' : q ∉ xs') : xs = xs' ∧ ys = ys' := by
  have hrun : ∀ zs : List Char, q ∉ zs → ∀ c ∈ zs, (c != q) = true := fun zs hzs c hc => by
    simp only [bne_iff_ne]
    rintro rfl
    exact hzs hc
  have hstop : ∀ zs, Stops (· != q) (q :: zs) := fun zs => stops_cons (by simp)
  have htake := congrArg (List.takeWhile (· != q)) h
  have hdrop := congrArg (List.dropWhile (· != q)) h
  rw [takeWhile_append_of_stops (hrun xs hxs) (hstop ys),
    takeWhile_append_of_stops (hrun xs' hxs') (hstop ys')] at htake
  rw [dropWhile_append_of_stops (hrun xs hxs) (hstop ys),
    dropWhile_append_of_stops (hrun xs' hxs') (hstop ys')] at hdrop
  exact ⟨htake, (List.cons.inj hdrop).2⟩

/-- The scan takes a start tag that begins with the identifying attribute for the tree of that name,
and goes on behind the value. -/
theorem Leads.match? (htag : IsTagName p.entityTag) (hid : IsName p.idAttribute) (h : p.Leads cs)
    (hstart : startTag? cs = some (t, after)) (before : Option Char) :
    ∃ name rest, p.match? .tree before ('<' :: cs) = some (name, rest) ∧
      nameOf? p.entityTag p.idAttribute t.opening = some (String.ofList name) ∧ Passes cs rest := by
  obtain ⟨spaces, q, value, rest, rfl, hne, hspaces, hq, hvalue, hplain⟩ := h
  have hblanks : ∀ c ∈ spaces, isBlank c = true := fun c hc => isBlank_of_isSpace (hspaces c hc)
  obtain ⟨hname, raw, behind, hraw, hattributes⟩ :=
    startTag?_of_blanks htag hid hne hblanks hstart
  have hquote : isSpace q = false ∧ q ≠ '<' := by
    simp only [isQuote, Bool.or_eq_true, beq_iff_eq] at hq
    rcases hq with rfl | rfl <;> decide
  have hqvalue : q ∉ value := fun hmem => by simp [(hplain q hmem).1] at hq
  rw [skipSpace_of_stops (stops_cons hquote.1)] at hraw
  obtain ⟨q', -, hsplit, hq', hfree⟩ := quoted?_eq_some hraw
  obtain ⟨rfl, hsplit⟩ := List.cons.inj hsplit
  obtain ⟨rfl, rfl⟩ := append_cons_inj hsplit hqvalue hq'
  refine ⟨value, rest, match?_tree_of_leads hid hne hspaces hq hvalue (fun c hc => (hplain c hc).1)
    before, ?_, ?_⟩
  · have hdecode : decode value = value := decode_of_notMem fun hmem => (hplain _ hmem).2 rfl
    simp [nameOf?, StartTag.opening, hname, hattributes, hdecode]
  · have hvalue : ∀ c ∈ value, (c != '<') = true := fun c hc => by simpa using hfree c hc
    have hbody : Passes (q :: (value ++ q :: rest)) rest :=
      .cons hquote.2 ((passes_append (by decide) hvalue _).trans (.cons hquote.2 (.refl rest)))
    refine (passes_append (by decide) htag.chars _).trans ?_
    refine (passes_append (by decide) hspaces _).trans ?_
    exact (passes_append (by decide) hid.chars _).trans (.cons (by decide) hbody)

/-! ## The scan -/

/-- The trees that start tags define, with the offsets of the tags. -/
def treesIn (p : Patterns) (tags : List (Nat × StartTag)) : List (String × Nat) :=
  tags.filterMap fun (offset, t) =>
    (nameOf? p.entityTag p.idAttribute t.opening).map (·, offset)

theorem treesIn_cons_of_none (h : nameOf? p.entityTag p.idAttribute t.opening = none) (offset : Nat)
    (tags : List (Nat × StartTag)) : p.treesIn ((offset, t) :: tags) = p.treesIn tags := by
  simp [treesIn, h]

theorem treesIn_cons_of_some {name : String}
    (h : nameOf? p.entityTag p.idAttribute t.opening = some name) (offset : Nat)
    (tags : List (Nat × StartTag)) :
    p.treesIn ((offset, t) :: tags) = (name, offset) :: p.treesIn tags := by
  simp [treesIn, h]

/-- Every start tag of an entity in the text begins with the identifying attribute. -/
def AllLead (p : Patterns) (cs : List Char) : Prop :=
  ∀ rest t after, '<' :: rest <:+ cs → startTag? rest = some (t, after) →
    (nameOf? p.entityTag p.idAttribute t.opening).isSome = true → p.Leads rest

theorem AllLead.of_suffix {rest : List Char} (h : p.AllLead cs) (hrest : rest <:+ cs) :
    p.AllLead rest :=
  fun tail t after htail => h tail t after (htail.trans hrest)

/-- The scan finds nothing where no tag name follows a `<`. -/
theorem match?_tree_eq_none {before : Option Char} {c : Char} (htag : IsTagName p.entityTag)
    (h : c = '<' → Stops isNameChar cs) : p.match? .tree before (c :: cs) = none := by
  cases hmatch : p.match? .tree before (c :: cs) with
  | none => rfl
  | some found =>
    obtain ⟨behind, hlit, -⟩ := Option.bind_eq_some_iff.mp hmatch
    rw [afterPrefix?_eq_some_iff, List.cons_append] at hlit
    obtain ⟨rfl, rfl⟩ := List.cons.inj hlit
    obtain ⟨d, ds, hds⟩ := List.exists_cons_of_ne_nil htag.nonempty
    have hstop := h rfl
    rw [hds] at hstop
    exact absurd (htag.chars d (hds ▸ List.mem_cons_self)) (by simp [hstop d rfl])

/-- **The scan of a regular text.** It finds the start tags of the entities, each at its `<`. -/
theorem scanFrom_tree (htag : IsTagName p.entityTag) (hid : IsName p.idAttribute) {cs : List Char}
    (hregular : Regular cs) (hlead : p.AllLead cs) (before : Option Char) (offset : Nat) :
    p.scanFrom .tree before offset cs = p.treesIn (startTags offset cs) := by
  match cs with
  | [] =>
    rw [scanFrom]
    rfl
  | c :: cs =>
    have hrest := hregular.2
    have hleadRest := hlead.of_suffix (List.suffix_cons c cs)
    by_cases hc : c = '<'
    · subst hc
      rcases hregular.1 rfl with hsome | hstop
      · obtain ⟨⟨t, after⟩, hstart⟩ := Option.isSome_iff_exists.mp hsome
        cases hname : nameOf? p.entityTag p.idAttribute t.opening with
        | none =>
          have hmatch : p.match? .tree before ('<' :: cs) = none := by
            cases hmatch : p.match? .tree before ('<' :: cs) with
            | none => rfl
            | some found =>
              have := isSome_nameOf?_of_match? htag hid hstart hmatch
              rw [hname] at this
              cases this
          rw [scanFrom_of_match?_eq_none hmatch, scanFrom_tree htag hid hrest hleadRest,
            startTags_of_startTag? hstart, treesIn_cons_of_none hname]
          rfl
        | some name =>
          have hleads := hlead cs t after List.suffix_rfl hstart (by rw [hname]; rfl)
          obtain ⟨value, tail, hmatch, hvalue, passage, rfl, hpassage⟩ :=
            hleads.match? htag hid hstart before
          have htail : tail <:+ passage ++ tail := List.suffix_append passage tail
          rw [scanFrom_of_match? hmatch,
            scanFrom_tree htag hid (hrest.of_suffix htail) (hleadRest.of_suffix htail),
            startTags_of_startTag? hstart, treesIn_cons_of_some hvalue, startTags_append hpassage,
            byteSize, ← Nat.add_assoc]
          rfl
      · rw [scanFrom_of_match?_eq_none (match?_tree_eq_none htag fun _ => hstop),
          scanFrom_tree htag hid hrest hleadRest, startTags_of_stops hstop]
        rfl
    · rw [scanFrom_of_match?_eq_none (match?_tree_eq_none htag fun h => absurd h hc),
        scanFrom_tree htag hid hrest hleadRest, startTags_cons_of_ne hc]
termination_by cs.length

theorem map_fst_treesIn (tags : List (Nat × StartTag)) : (p.treesIn tags).map Prod.fst =
    (tags.map fun (_, t) => t.opening).filterMap (nameOf? p.entityTag p.idAttribute) := by
  rw [treesIn, List.map_filterMap, List.filterMap_map]
  congr 1
  funext ⟨offset, t⟩
  cases h : nameOf? p.entityTag p.idAttribute t.opening <;> simp [h]

/-- **The scan agrees with the parser.** In a plain document whose entities are written with the
identifying attribute first, the scan finds the entities in document order, each at its `<`. Their
names are those of the entities in the tree, and a name is found in the tree exactly if the scan
finds it. -/
theorem scan_tree_of_parse (htag : IsTagName p.entityTag) (hid : IsName p.idAttribute)
    {text : String} {node : Node} (hparse : parse text = .ok node)
    (hplain : Plain (afterDeclaration text.toList)) (hlead : p.AllLead text.toList) :
    ∃ root, readRoot? text.toList = some root ∧ root.toNode = node ∧
      (startTags 0 text.toList).map (fun (_, t) => t.opening) = root.openings ∧
      p.scan .tree text = p.treesIn (startTags 0 text.toList) ∧
      (p.scan .tree text).map Prod.fst =
        root.openings.filterMap (nameOf? p.entityTag p.idAttribute) ∧
      ((p.scan .tree text).map Prod.fst).Perm
        ((node.entities p.entityTag p.idAttribute).filterMap (·.attribute? p.idAttribute)) ∧
      ∀ name, (node.entity? p.entityTag p.idAttribute name).isSome = true ↔
        name ∈ (p.scan .tree text).map Prod.fst := by
  rw [parse] at hparse
  split at hparse
  · next root hroot =>
    split at hparse
    · cases hparse
    · next hfault =>
      cases hparse
      obtain ⟨hregular, hopenings⟩ := readRoot?_openings hplain hroot
      have hscan : p.scan .tree text = p.treesIn (startTags 0 text.toList) :=
        scanFrom_tree htag hid hregular hlead none 0
      have hnames : (p.scan .tree text).map Prod.fst =
          root.openings.filterMap (nameOf? p.entityTag p.idAttribute) := by
        rw [hscan, map_fst_treesIn]
        exact congrArg _ hopenings
      have hperm := root.names_perm p.entityTag p.idAttribute hfault
      rw [← hnames] at hperm
      refine ⟨root, hroot, rfl, hopenings, hscan, hnames, hperm.symm, fun name => ?_⟩
      rw [← hperm.mem_iff, Node.entity?, List.find?_isSome]
      simp [Node.namesFrom, Node.entities, List.mem_filterMap]
  · split at hparse <;> cases hparse

/-- A document with two entities, and a tag like theirs that names none. -/
def grove : String := "<?xml version='1.0'?><r><T i='b'><T/></T><x><T i=\"a\"/></x></r>"

theorem allLead_grove : AllLead ⟨"T", "i", "class"⟩ grove.toList := by
  intro rest t after hrest hstart hname
  have hentity :
      ((startTag? rest).bind fun read => nameOf? "T" "i" read.1.opening).isSome = true := by
    rw [hstart]
    exact hname
  simp only [grove, String.reduceToList, List.suffix_cons_iff, List.cons.injEq, Char.reduceEq,
    true_and, false_and, List.suffix_nil, reduceCtorEq, or_self, or_false, false_or] at hrest
  have hspaces : ∀ c ∈ [' '], isSpace c = true := List.forall_mem_singleton.mpr (by decide)
  rcases hrest with rfl | rfl | rfl | rfl | rfl | rfl | rfl | rfl | rfl
  case inr.inr.inl =>
    exact ⟨[' '], '\'', ['b'], "><T/></T><x><T i=\"a\"/></x></r>".toList, by decide, by decide,
      hspaces, by decide, by decide, List.forall_mem_singleton.mpr (by decide)⟩
  case inr.inr.inr.inr.inr.inr.inl =>
    exact ⟨[' '], '"', ['a'], "/></x></r>".toList, by decide, by decide,
      hspaces, by decide, by decide, List.forall_mem_singleton.mpr (by decide)⟩
  all_goals exact absurd hentity (by decide +kernel)

theorem scan_tree_of_parse_grove :
    ∃ node, parse grove = .ok node ∧
      scan ⟨"T", "i", "class"⟩ .tree grove = [("b", 24), ("a", 44)] ∧
      ((node.entities "T" "i").filterMap (·.attribute? "i")).Perm ["b", "a"] ∧
      (node.entity? "T" "i" "a").isSome = true := by
  have hok : (parse grove).isOk = true := by decide +kernel
  cases hparse : parse grove with
  | error e =>
    rw [hparse] at hok
    cases hok
  | ok node =>
    have hplain : Plain (afterDeclaration grove.toList) := by constructor <;> decide +kernel
    have htrees : treesIn ⟨"T", "i", "class"⟩ (startTags 0 grove.toList) =
        [("b", 24), ("a", 44)] := by decide +kernel
    have htag : IsTagName "T" := ⟨by decide, List.all_eq_true.mp (by decide)⟩
    have hid : IsName "i" := ⟨'i', [], by decide, by decide, by simp⟩
    obtain ⟨root, -, -, -, hscan, -, hperm, hfound⟩ := scan_tree_of_parse
      (p := ⟨"T", "i", "class"⟩) htag hid hparse hplain allLead_grove
    rw [hscan, htrees] at hperm hfound
    exact ⟨node, rfl, hscan.trans htrees, hperm.symm, (hfound "a").mpr (by decide)⟩

end Patterns

end Source

end BehaviorIndex
