import BehaviorIndex.Proofs.Markup.Name
import BehaviorIndex.Proofs.Toml.Keys
import BehaviorIndex.Proofs.Toml.Values

/-!
# Documents are read back

**Theorem (`parse?_render`).** Entries with sections of one level are read back from the document
that is written for them: the entries of the outermost table first, then the sections, each in
order.

A text *says* some statements if they are what is read in front of any document (`Says`). Saying
goes through concatenation, so the statements of a document are those of its lines. Each statement
finds its key unused: an entry goes to the end of the open table, and a header opens a new one.
-/

namespace BehaviorIndex.Toml

open Data (Value Entries)

/-! ## Lines -/

/-- The statements of a document are these, however many rounds its length leaves. -/
def Parses (cs : List Char) (ss : List Statement) : Prop :=
  ∀ rounds, cs.length ≤ rounds → readStatements? rounds cs = some ss

/-- The statements are read in front of any document. -/
def Says (cs : List Char) (ss : List Statement) : Prop :=
  ∀ rest ts, Parses rest ts → Parses (cs ++ rest) (ss ++ ts)

section

variable {cs ds rest : List Char} {ss ts : List Statement} {s : Statement}

theorem parses_nil : Parses [] [] := by
  intro rounds _
  cases rounds <;> rfl

theorem Says.parses (h : Says cs ss) : Parses cs ss := by
  simpa using h [] [] parses_nil

theorem says_nil : Says [] [] := fun _ _ h => h

theorem Says.append (hcs : Says cs ss) (hds : Says ds ts) : Says (cs ++ ds) (ss ++ ts) := by
  intro rest us h
  rw [List.append_assoc, List.append_assoc]
  exact hcs _ _ (hds rest us h)

theorem says_flatMap {xs : List α} {f : α → List Char} {g : α → List Statement}
    (h : ∀ x ∈ xs, Says (f x) (g x)) : Says (xs.flatMap f) (xs.flatMap g) := by
  induction xs with
  | nil => exact says_nil
  | cons x xs ih =>
    rw [List.forall_mem_cons] at h
    exact h.1.append (ih h.2)

/-- An empty line says nothing. -/
theorem says_newline : Says ['\n'] [] := by
  intro rest ts h rounds hrounds
  cases rounds with
  | zero => cases hrounds
  | succ rounds => exact h rounds (Nat.le_of_succ_le_succ hrounds)

theorem says_intercalate {xs : List α} {f : α → List Char} {g : α → List Statement}
    (hcs : Says cs ss) (h : ∀ x ∈ xs, Says (f x) (g x)) :
    Says (['\n'].intercalate (cs :: xs.map f)) (ss ++ xs.flatMap g) := by
  induction xs generalizing cs ss with
  | nil => simpa [List.intercalate] using hcs
  | cons x xs ih =>
    rw [List.forall_mem_cons] at h
    have hline : Says (cs ++ ['\n']) ss := by simpa using hcs.append says_newline
    rw [List.map_cons, List.intercalate_cons_cons, List.flatMap_cons]
    exact hline.append (ih h.1 h.2)

/-- A statement and its line end. -/
theorem says_line {c : Char} (hhead : cs.head? = some c) (hspace : isSpace c = false)
    (hblank : startsBlank [c] = false)
    (h : ∀ rest, readStatement? (cs ++ '\n' :: rest) = some (s, '\n' :: rest)) :
    Says (cs ++ ['\n']) [s] := by
  obtain ⟨cs, rfl⟩ := List.head?_eq_some_iff.mp hhead
  intro rest ts hrest rounds hrounds
  rw [List.append_assoc, List.singleton_append] at hrounds ⊢
  have hskip : skipSpaces (c :: cs ++ '\n' :: rest) = c :: cs ++ '\n' :: rest := by
    simp [skipSpaces, hspace]
  have hstart : startsBlank (c :: cs ++ '\n' :: rest) = false := hblank
  have hafter : afterLine? ('\n' :: rest) = some rest := rfl
  cases rounds with
  | zero => cases hrounds
  | succ rounds =>
    have hlength : rest.length ≤ rounds := by
      simp only [List.length_append, List.length_cons] at hrounds
      omega
    rw [readStatements?, hskip, hstart, h]
    · simp [hafter, hrest rounds hlength]
    · simp

end

/-! ## Keys -/

/-- A key that is written as it is. -/
structure IsBareKey (key : String) : Prop where
  nonempty : key.toList ≠ []
  chars : ∀ c ∈ key.toList, isBareKeyChar c = true

instance (key : String) : Decidable (IsBareKey key) :=
  decidable_of_iff (key.toList ≠ [] ∧ key.toList.all isBareKeyChar = true)
    ⟨fun h => ⟨h.1, List.all_eq_true.mp h.2⟩, fun h => ⟨h.nonempty, List.all_eq_true.mpr h.chars⟩⟩

theorem ne_of_isBareKeyChar {c d : Char} (hc : isBareKeyChar c = true)
    (hd : isBareKeyChar d = false) : c ≠ d := by
  rintro rfl
  simp [hc] at hd

theorem not_isSpace_of_isBareKeyChar {c : Char} (h : isBareKeyChar c = true) :
    isSpace c = false := by
  have hspace : c ≠ ' ' := ne_of_isBareKeyChar h rfl
  have htab : c ≠ '\t' := ne_of_isBareKeyChar h rfl
  simp [isSpace, hspace, htab]

theorem startsBlank_of_isBareKeyChar {c : Char} (h : isBareKeyChar c = true) :
    startsBlank [c] = false := by
  have hhash : c ≠ '#' := ne_of_isBareKeyChar h rfl
  have hnewline : c ≠ '\n' := ne_of_isBareKeyChar h rfl
  have hreturn : c ≠ '\r' := ne_of_isBareKeyChar h rfl
  simp [startsBlank, hhash, hnewline, hreturn]

namespace IsBareKey

variable {key : String} {rest : List Char}

theorem writeKey_eq (h : IsBareKey key) : writeKey key = key := by
  have hempty : key.isEmpty = false := by
    rw [Bool.eq_false_iff]
    intro hempty
    exact h.nonempty (by simpa using hempty)
  have hall : key.toList.all isBareKeyChar = true := List.all_eq_true.mpr h.chars
  simp [writeKey, hempty, hall]

theorem exists_cons (h : IsBareKey key) :
    ∃ c cs, key.toList = c :: cs ∧ isBareKeyChar c = true := by
  obtain ⟨c, cs, hcs⟩ := List.exists_cons_of_ne_nil h.nonempty
  exact ⟨c, cs, hcs, h.chars c (by simp [hcs])⟩

theorem readKeyPart?_append (h : IsBareKey key) (hrest : Markup.Stops isBareKeyChar rest) :
    readKeyPart? (key.toList ++ rest) = some (key, rest) := by
  have htake := Markup.takeWhile_append_of_stops h.chars hrest
  have hdrop := Markup.dropWhile_append_of_stops h.chars hrest
  obtain ⟨c, cs, hcs, hc⟩ := h.exists_cons
  rw [readKeyPart?, htake, hdrop]
  · split
    · next heq => exact absurd heq h.nonempty
    · rw [String.ofList_toList]
  · intro ds heq
    rw [hcs] at heq
    exact ne_of_isBareKeyChar hc rfl (List.cons.inj heq).1
  · intro ds heq
    rw [hcs] at heq
    exact ne_of_isBareKeyChar hc rfl (List.cons.inj heq).1

/-- A key of one part, with the spaces behind it. -/
theorem readKey?_append (h : IsBareKey key) (hrest : Markup.Stops isBareKeyChar rest)
    (hdot : ∀ cs, skipSpaces rest ≠ '.' :: cs) (parts : Nat) :
    readKey? (parts + 1) (key.toList ++ rest) = some ([key], skipSpaces rest) := by
  have hskip : skipSpaces (key.toList ++ rest) = key.toList ++ rest := by
    obtain ⟨c, cs, hcs, hc⟩ := h.exists_cons
    simp [skipSpaces, hcs, not_isSpace_of_isBareKeyChar hc]
  rw [readKey?, hskip, h.readKeyPart?_append hrest]
  simp only [Option.bind_eq_bind, Option.bind_some]
  rfl

end IsBareKey

/-! ## Statements -/

section

variable {key : String} {v : Value}

theorem readEntry?_append (hkey : IsBareKey key) (hv : Savable maxNesting v) (rest : List Char) :
    readEntry? (readValue? maxNesting)
        (key.toList ++ ' ' :: '=' :: ' ' :: ((writeValue v).toList ++ '\n' :: rest)) =
      some (([key], asRead v), '\n' :: rest) := by
  have hreadKey : readKey? maxKeyParts
      (key.toList ++ ' ' :: '=' :: ' ' :: ((writeValue v).toList ++ '\n' :: rest)) =
      some ([key], '=' :: ' ' :: ((writeValue v).toList ++ '\n' :: rest)) := by
    refine hkey.readKey?_append (Markup.stops_cons rfl) (fun ds heq => ?_) 78
    cases heq
  have hskip : skipSpaces (' ' :: ((writeValue v).toList ++ '\n' :: rest)) =
      (writeValue v).toList ++ '\n' :: rest := by
    obtain ⟨c, cs, hcs, hc⟩ := hv.exists_writeValue_eq
    rw [hcs]
    exact skipSpaces_cons hc _
  have hvalue := readValue?_writeValue hv ('\n' :: rest) (ends_cons (by decide) rest)
  unfold readEntry?
  simp [hreadKey, hskip, hvalue]

theorem says_writeEntry (hkey : IsBareKey key) (hv : Savable maxNesting v) :
    Says (writeEntry key v).toList [.entry [key] (asRead v)] := by
  have hwrite : (writeEntry key v).toList =
      key.toList ++ ' ' :: '=' :: ' ' :: (writeValue v).toList ++ ['\n'] := by
    simp [writeEntry, hkey.writeKey_eq]
  obtain ⟨c, cs, hcs, hc⟩ := hkey.exists_cons
  have hbracket : c ≠ '[' := ne_of_isBareKeyChar hc rfl
  rw [hwrite]
  refine says_line (by simp [hcs]) (not_isSpace_of_isBareKeyChar hc)
    (startsBlank_of_isBareKeyChar hc) fun rest => ?_
  have hentry := readEntry?_append hkey hv rest
  rw [List.append_assoc, List.cons_append, List.cons_append, List.cons_append, readStatement?,
    hentry]
  · rfl
  · intro ds heq
    rw [hcs] at heq
    exact hbracket (List.cons.inj heq).1
  · intro ds heq
    rw [hcs] at heq
    exact hbracket (List.cons.inj heq).1

theorem says_header (hkey : IsBareKey key) :
    Says ('[' :: (key.toList ++ [']']) ++ ['\n']) [.table [key]] := by
  refine says_line rfl rfl rfl fun rest => ?_
  have hreadKey : readKey? maxKeyParts (key.toList ++ ']' :: '\n' :: rest) =
      some ([key], ']' :: '\n' :: rest) := by
    refine hkey.readKey?_append (Markup.stops_cons rfl) (fun ds heq => ?_) 78
    cases heq
  obtain ⟨c, cs, hcs, hc⟩ := hkey.exists_cons
  have hbracket : c ≠ '[' := ne_of_isBareKeyChar hc rfl
  rw [List.cons_append, List.append_assoc, List.singleton_append, readStatement?, hreadKey]
  · rfl
  · intro ds heq
    rw [hcs] at heq
    exact hbracket (List.cons.inj heq).1

end

/-! ## Documents -/

/-- Entries on lines of their own, under different keys. -/
structure IsFlat (es : Entries) : Prop where
  nodup : es.keys.Nodup
  bare : ∀ e ∈ es, IsBareKey e.1
  savable : ∀ e ∈ es, Savable maxNesting e.2

/-- The entries of the outermost table, and those of its sections. -/
structure Document where
  top : Entries
  sections : List (String × Entries)
  nodup : (top.keys ++ sections.map Prod.fst).Nodup
  bare : ∀ s ∈ sections, IsBareKey s.1
  top_flat : IsFlat top
  flat : ∀ s ∈ sections, IsFlat s.2

def Document.entries (doc : Document) : Entries :=
  doc.top ++ doc.sections.map fun s => (s.1, .table s.2)

def statements (es : Entries) : List Statement := es.map fun e => .entry [e.1] (asRead e.2)

def sectionStatements (s : String × Entries) : List Statement := .table [s.1] :: statements s.2

theorem Savable.isTable_eq {depth : Nat} {v : Value} (h : Savable depth v) : isTable v = false := by
  cases h <;> rfl

namespace IsFlat

variable {es : Entries}

theorem filter_eq (h : IsFlat es) : es.filter (fun e => !isTable e.2) = es := by
  rw [List.filter_eq_self]
  intro e he
  simp [(h.savable e he).isTable_eq]

theorem toList_writeEntries (h : IsFlat es) :
    (writeEntries es).toList = es.flatMap fun e => (writeEntry e.1 e.2).toList := by
  rw [writeEntries, h.filter_eq, String.toList_join, List.flatMap_map]

theorem eq_nil_of_isEmpty (h : IsFlat es) (hempty : (writeEntries es).isEmpty = true) :
    es = [] := by
  have hlist : (es.flatMap fun e => (writeEntry e.1 e.2).toList) = [] := by
    rw [← h.toList_writeEntries]
    simpa using hempty
  cases es with
  | nil => rfl
  | cons e es => simp [writeEntry] at hlist

theorem says_writeEntries (h : IsFlat es) : Says (writeEntries es).toList (statements es) := by
  have hstatements : statements es = es.flatMap fun e => [.entry [e.1] (asRead e.2)] := by
    rw [statements, List.map_eq_flatMap]
  rw [h.toList_writeEntries, hstatements]
  exact says_flatMap fun e he => says_writeEntry (h.bare e he) (h.savable e he)

theorem says_writeSection {key : String} (hkey : IsBareKey key) (h : IsFlat es) :
    Says (writeSection key (.table es)).toList (sectionStatements (key, es)) := by
  have hwrite : (writeSection key (.table es)).toList =
      '[' :: (key.toList ++ [']']) ++ ['\n'] ++ (writeEntries es).toList := by
    simp [writeSection, hkey.writeKey_eq]
  rw [hwrite]
  exact (says_header hkey).append h.says_writeEntries

end IsFlat

namespace Document

variable (doc : Document)

theorem isTable_of_mem {e : String × Value}
    (h : e ∈ doc.sections.map fun s => (s.1, .table s.2)) : isTable e.2 = true := by
  obtain ⟨s, -, rfl⟩ := List.mem_map.mp h
  rfl

theorem filter_not_isTable : doc.entries.filter (fun e => !isTable e.2) = doc.top := by
  have hsections :
      (doc.sections.map fun s => (s.1, Value.table s.2)).filter (fun e => !isTable e.2) = [] := by
    rw [List.filter_eq_nil_iff]
    intro e he
    simp [doc.isTable_of_mem he]
  rw [entries, List.filter_append, doc.top_flat.filter_eq, hsections, List.append_nil]

theorem filter_isTable :
    doc.entries.filter (fun e => isTable e.2) = doc.sections.map fun s => (s.1, .table s.2) := by
  have htop : doc.top.filter (fun e => isTable e.2) = [] := by
    rw [List.filter_eq_nil_iff]
    intro e he
    simp [(doc.top_flat.savable e he).isTable_eq]
  rw [entries, List.filter_append, htop, List.nil_append, List.filter_eq_self]
  exact fun e he => doc.isTable_of_mem he

theorem says_render :
    Says (render doc.entries).toList
      (statements doc.top ++ doc.sections.flatMap sectionStatements) := by
  have hsections : ∀ s ∈ doc.sections,
      Says (writeSection s.1 (.table s.2)).toList (sectionStatements s) :=
    fun s hs => (doc.flat s hs).says_writeSection (doc.bare s hs)
  have htop : writeEntries doc.entries = writeEntries doc.top := by
    rw [writeEntries, writeEntries, doc.filter_not_isTable, doc.top_flat.filter_eq]
  simp only [render, htop, doc.filter_isTable, List.map_map, String.toList_intercalate]
  split
  · next hempty =>
    rw [doc.top_flat.eq_nil_of_isEmpty hempty]
    cases hcases : doc.sections with
    | nil => exact says_nil
    | cons s ss =>
      rw [hcases, List.forall_mem_cons] at hsections
      simpa [statements, Function.comp_def] using says_intercalate hsections.1 hsections.2
  · simpa [Function.comp_def] using says_intercalate doc.top_flat.says_writeEntries hsections

end Document

/-! ### Numbers that can be written -/

theorem allWritable_iff {vs : List Value} :
    allWritable vs = true ↔ ∀ v ∈ vs, isWritable v = true := by
  induction vs with
  | nil => simp [allWritable]
  | cons v vs ih => simp [allWritable, ih]

theorem entriesWritable_iff {es : Entries} :
    entriesWritable es = true ↔ ∀ e ∈ es, isWritable e.2 = true := by
  induction es with
  | nil => simp [entriesWritable]
  | cons e es ih => rw [entriesWritable, Bool.and_eq_true, ih, List.forall_mem_cons]

theorem Savable.isWritable {depth : Nat} {v : Value} (h : Savable depth v) :
    isWritable v = true := by
  induction h with
  | text s => rfl
  | nat h => exact decide_eq_true h
  | bool b => rfl
  | list h ih => exact allWritable_iff.mpr ih

theorem Document.entriesWritable (doc : Document) : entriesWritable doc.entries = true := by
  rw [entriesWritable_iff, entries, List.forall_mem_append]
  refine ⟨fun e he => (doc.top_flat.savable e he).isWritable, fun e he => ?_⟩
  obtain ⟨s, hs, rfl⟩ := List.mem_map.mp he
  exact entriesWritable_iff.mpr fun e he => ((doc.flat s hs).savable e he).isWritable

/-! ## The tree of a document -/

theorem Items.set_append {items : Items} {key : String} (h : items.lookup key = none)
    (old new : Item) : (items ++ [(key, old)]).set key new = items ++ [(key, new)] := by
  induction items with
  | nil => simp [set]
  | cons e items ih =>
    obtain ⟨k, item⟩ := e
    rw [List.lookup_cons] at h
    split at h
    · cases h
    · next hk =>
      have hne : (k == key) = false := by
        rw [beq_eq_false_iff_ne] at hk ⊢
        exact hk.symm
      rw [List.cons_append, set, hne, ih h]
      rfl

theorem lookup_eq_none_of_notMem {items : Items} {key : String}
    (h : key ∉ items.map Prod.fst) : items.lookup key = none := by
  rw [List.lookup_eq_none_iff]
  intro e he
  rw [bne_iff_ne]
  rintro rfl
  exact h (List.mem_map_of_mem he)

/-- Entries go to the end of the items, which are those of the open table. -/
def IsOpen (draft : Items → Draft) : Prop :=
  ∀ items key v, items.lookup key = none →
    (draft items).add? (.entry [key] v) = some (draft (items ++ [(key, .value v)]))

theorem isOpen_top : IsOpen fun items => ⟨items, []⟩ := by
  intro items key v h
  simp [Draft.add?, Items.update, Items.insert?, h]

theorem isOpen_section {items : Items} {key : String} (h : items.lookup key = none) :
    IsOpen fun inner => ⟨items ++ [(key, .table .defined inner)], [key]⟩ := by
  intro inner k v hk
  simp [Draft.add?, Items.update, Items.insert?, List.lookup_append, h, hk, Items.set_append h]

theorem add?_header {items : Items} {key : String} (h : items.lookup key = none)
    (current : List String) :
    Draft.add? ⟨items, current⟩ (.table [key]) =
      some ⟨items ++ [(key, .table .defined [])], [key]⟩ := by
  simp [Draft.add?, Items.define?, Items.update, h]

def valueItems (es : Entries) : Items := es.map fun e => (e.1, .value (asRead e.2))

def sectionItem (s : String × Entries) : String × Item :=
  (s.1, .table .defined (valueItems s.2))

/-- A key that is none of those before it is unused, and used when its turn is over. -/
theorem nodup_step {items : Items} {key : String} {keys : List String}
    (h : (items.map Prod.fst ++ key :: keys).Nodup) (item : Item) :
    items.lookup key = none ∧ ((items ++ [(key, item)]).map Prod.fst ++ keys).Nodup := by
  refine ⟨lookup_eq_none_of_notMem fun hmem => ?_, by simpa using h⟩
  exact (List.nodup_append.mp h).2.2 key hmem key List.mem_cons_self rfl

theorem foldlM_statements {draft : Items → Draft} (hopen : IsOpen draft) {es : Entries}
    {items : Items} (h : (items.map Prod.fst ++ es.keys).Nodup) :
    (statements es).foldlM Draft.add? (draft items) = some (draft (items ++ valueItems es)) := by
  induction es generalizing items with
  | nil => simp [statements, valueItems]
  | cons e es ih =>
    obtain ⟨hfresh, hnext⟩ := nodup_step h (.value (asRead e.2))
    have hstep := hopen items e.1 (asRead e.2) hfresh
    have hlater := ih hnext
    rw [List.append_assoc] at hlater
    rw [statements, List.map_cons, List.foldlM_cons, hstep]
    exact hlater

theorem foldlM_sections {sections : List (String × Entries)} {items : Items}
    (h : (items.map Prod.fst ++ sections.map Prod.fst).Nodup)
    (hflat : ∀ s ∈ sections, IsFlat s.2) (current : List String) :
    ∃ current', (sections.flatMap sectionStatements).foldlM Draft.add? ⟨items, current⟩ =
      some ⟨items ++ sections.map sectionItem, current'⟩ := by
  induction sections generalizing items current with
  | nil => exact ⟨current, by simp⟩
  | cons s sections ih =>
    rw [List.forall_mem_cons] at hflat
    obtain ⟨hfresh, hnext⟩ := nodup_step h (.table .defined (valueItems s.2))
    obtain ⟨current', hlater⟩ := ih hnext hflat.2 [s.1]
    have hkeys : (([] : Items).map Prod.fst ++ s.2.keys).Nodup := hflat.1.nodup
    have hentries := foldlM_statements (isOpen_section hfresh) hkeys
    refine ⟨current', ?_⟩
    rw [List.flatMap_cons, List.foldlM_append, sectionStatements, List.foldlM_cons,
      add?_header hfresh, Option.bind_eq_bind, Option.bind_some, hentries]
    rw [List.append_assoc] at hlater
    exact hlater

theorem entriesValue_valueItems (es : Entries) :
    entriesValue (valueItems es) = entriesAsRead es := by
  simp [entriesValue_eq_map, entriesAsRead_eq_map, valueItems, Item.toValue]

theorem entriesValue_sectionItem (sections : List (String × Entries)) :
    entriesValue (sections.map sectionItem) =
      entriesAsRead (sections.map fun s => (s.1, .table s.2)) := by
  rw [entriesValue_eq_map, entriesAsRead_eq_map, List.map_map, List.map_map]
  simp [sectionItem, Item.toValue, asRead, entriesValue_valueItems]

/-- No document begins with a byte order mark of its own. -/
theorem dropMark_of_parses {cs : List Char} {ss : List Statement} (h : Parses cs ss) :
    dropMark cs = cs := by
  have hne : ∀ ds, cs ≠ '\uFEFF' :: ds := by
    rintro ds rfl
    cases h (ds.length + 1) le_rfl
  rw [dropMark]
  exact hne

namespace Document

variable (doc : Document)

theorem foldlM_add? :
    ∃ current, (statements doc.top ++ doc.sections.flatMap sectionStatements).foldlM Draft.add? {} =
      some ⟨valueItems doc.top ++ doc.sections.map sectionItem, current⟩ := by
  have hkeys : (([] : Items).map Prod.fst ++ doc.top.keys).Nodup := doc.top_flat.nodup
  have htop := foldlM_statements isOpen_top hkeys
  have hnext : ((valueItems doc.top).map Prod.fst ++ doc.sections.map Prod.fst).Nodup := by
    rw [valueItems, List.map_map]
    exact doc.nodup
  obtain ⟨current, hsections⟩ := foldlM_sections hnext doc.flat []
  refine ⟨current, ?_⟩
  rw [List.foldlM_append, htop]
  exact hsections

/-- **Documents.** The entries of a document are read back from what is written for it. -/
theorem parse?_render : parse? (render doc.entries) = some (entriesAsRead doc.entries) := by
  have hparses := doc.says_render.parses
  obtain ⟨current, hfold⟩ := doc.foldlM_add?
  have hvalue : entriesValue (valueItems doc.top ++ doc.sections.map sectionItem) =
      entriesAsRead doc.entries := by
    rw [entriesValue_eq_map, List.map_append, ← entriesValue_eq_map, ← entriesValue_eq_map,
      entriesValue_valueItems, entriesValue_sectionItem, entries, entriesAsRead_eq_map,
      entriesAsRead_eq_map, entriesAsRead_eq_map, List.map_append]
  rw [parse?, dropMark_of_parses hparses, hparses _ le_rfl]
  simp [hfold, hvalue]

end Document

/-! ## Looking up what is read -/

theorem get?_entriesAsRead (es : Entries) (key : String) :
    Entries.get? (entriesAsRead es) key = (es.get? key).map asRead := by
  induction es with
  | nil => rfl
  | cons e es ih =>
    obtain ⟨k, v⟩ := e
    rw [entriesAsRead]
    by_cases hkey : key = k
    · rw [hkey, Entries.get?_cons_self, Entries.get?_cons_self, Option.map_some]
    · rw [Entries.get?_cons_of_ne hkey, Entries.get?_cons_of_ne hkey, ih]

theorem tableAt_entriesAsRead (es : Entries) (key : String) :
    Entries.tableAt (entriesAsRead es) key = entriesAsRead (es.tableAt key) := by
  rw [Entries.tableAt, Entries.tableAt, get?_entriesAsRead]
  cases es.get? key with
  | none => rfl
  | some v => cases v <;> rfl

end BehaviorIndex.Toml
