import BehaviorIndex.Proofs.Index.Refinement
import BehaviorIndex.Proofs.Markup.Columns
import BehaviorIndex.Proofs.Text.Blank
import BehaviorIndex.Proofs.Workspace.Quotes

/-!
# Completion

A value that is being typed is searched for from the left: it is the one at the first place before
the cursor where an attribute leaves a value open.

**Theorem (`completeAt_offers`).** What is found can be told from the right. It is what stands
behind the last quote before the cursor, if one of the attributes comes before that quote, with
nothing but blanks between. The names that are offered are those that begin with it and have a
location, in ascending order.

Every place where a value is left open gives the same value, because there is one last quote
(`value_unique`); so it does not matter which attribute is found first, or whether one ends like
another. A name is in the store only as long as it has a location (`Store.filled_run`).
-/

namespace BehaviorIndex.Markup

open Text

/-! ## Open values -/

section

variable {key cs lead value : List Char} {keys : List (List Char)}

/-- A key, blanks and a quote, and behind it a value without quotes up to the end. -/
def LeavesOpen (key value cs : List Char) : Prop :=
  ∃ blanks, cs = key ++ blanks ++ '"' :: value ∧ (∀ c ∈ blanks, isBlank c = true) ∧ '"' ∉ value

theorem openValue?_eq_some_iff : openValue? key cs = some value ↔ LeavesOpen key value cs := by
  constructor
  · intro h
    unfold openValue? at h
    split at h
    · next found hfound =>
      obtain ⟨rest, hrest, htrim⟩ := Option.map_eq_some_iff.mp hfound
      split at h
      · cases h
      · next hquote =>
        cases h
        refine ⟨rest.takeWhile isBlank, ?_, fun c hc => of_mem_takeWhile hc, by simpa using hquote⟩
        rw [afterPrefix?_eq_some_iff.mp hrest, List.append_assoc, ← htrim, trimStart,
          List.takeWhile_append_dropWhile]
    · cases h
  · rintro ⟨blanks, rfl, hblanks, hquote⟩
    have hrest : afterPrefix? key (key ++ blanks ++ '"' :: value) = some (blanks ++ '"' :: value) :=
      afterPrefix?_eq_some_iff.mpr (List.append_assoc _ _ _)
    have htrim : trimStart (blanks ++ '"' :: value) = '"' :: value :=
      dropWhile_append_of_stops hblanks (stops_cons (by decide))
    rw [openValue?, hrest, Option.map_some, htrim]
    simp [hquote]

/-- What stands behind the last quote. -/
theorem takeWhile_reverse_quote (lead : List Char) (hvalue : '"' ∉ value) :
    (lead ++ '"' :: value).reverse.takeWhile (· != '"') = value.reverse := by
  have hreverse : (lead ++ '"' :: value).reverse = value.reverse ++ '"' :: lead.reverse := by simp
  rw [hreverse]
  exact takeWhile_append_of_stops (ne_quote_of_notMem (by simpa using hvalue)) (stops_quote _)

theorem value_unique {lead' value' : List Char} (hvalue : '"' ∉ value) (hvalue' : '"' ∉ value')
    (h : lead ++ '"' :: value = lead' ++ '"' :: value') : value = value' := by
  rw [← List.reverse_inj, ← takeWhile_reverse_quote lead hvalue, h,
    takeWhile_reverse_quote lead' hvalue']

/-- **Soundness of the search.** -/
theorem exists_of_firstOpenValue? (h : firstOpenValue? keys cs = some value) :
    ∃ front rest, cs = front ++ rest ∧ ∃ key ∈ keys, LeavesOpen key value rest := by
  induction cs with
  | nil => cases h
  | cons c cs ih =>
    rw [firstOpenValue?, Option.or_eq_some_iff] at h
    rcases h with hhere | ⟨-, hlater⟩
    · obtain ⟨key, hkey, hopen⟩ := List.exists_of_findSome?_eq_some hhere
      exact ⟨[], c :: cs, rfl, key, hkey, openValue?_eq_some_iff.mp hopen⟩
    · obtain ⟨front, rest, rfl, hopen⟩ := ih hlater
      exact ⟨c :: front, rest, rfl, hopen⟩

theorem isSome_firstOpenValue? {rest : List Char} (hkey : key ∈ keys)
    (h : LeavesOpen key value rest) (front : List Char) :
    (firstOpenValue? keys (front ++ rest)).isSome := by
  induction front with
  | nil =>
    obtain ⟨c, cs, hrest⟩ : ∃ c cs, rest = c :: cs := by
      obtain ⟨blanks, rfl, -⟩ := h
      exact List.exists_cons_of_ne_nil (by simp)
    have hhere : (keys.findSome? (openValue? · rest)).isSome := by
      rw [List.findSome?_isSome_iff]
      exact ⟨key, hkey, by simp [openValue?_eq_some_iff.mpr h]⟩
    rw [hrest] at hhere
    rw [List.nil_append, hrest, firstOpenValue?, Option.isSome_or, hhere, Bool.true_or]
  | cons c front ih => rw [List.cons_append, firstOpenValue?, Option.isSome_or, ih, Bool.or_true]

/-- **The search by its end.** An open value stands behind the last quote, and a key before that
quote. -/
theorem firstOpenValue?_eq_some_iff (hkeys : ∀ key ∈ keys, ∃ name, key = name ++ ['=']) :
    firstOpenValue? keys cs = some value ↔
      ∃ lead, cs = lead ++ '"' :: value ∧ '"' ∉ value ∧ ∃ key ∈ keys, key <:+ trimEnd lead := by
  constructor
  · intro h
    obtain ⟨front, rest, rfl, key, hkey, blanks, rfl, hblanks, hvalue⟩ :=
      exists_of_firstOpenValue? h
    obtain ⟨name, rfl⟩ := hkeys key hkey
    refine ⟨front ++ (name ++ ['='] ++ blanks), by simp, hvalue, _, hkey, ?_⟩
    rw [← List.append_assoc, ← List.append_assoc front,
      trimEnd_concat_append (front ++ name) (by decide) hblanks, List.append_assoc]
    exact List.suffix_append _ _
  · rintro ⟨lead, rfl, hvalue, key, hkey, front, hfront⟩
    obtain ⟨blanks, hlead, hblanks⟩ := exists_trimEnd lead
    have hopen : LeavesOpen key value (key ++ blanks ++ '"' :: value) :=
      ⟨blanks, rfl, hblanks, hvalue⟩
    have hsome := isSome_firstOpenValue? hkey hopen front
    have hcs : front ++ (key ++ blanks ++ '"' :: value) = lead ++ '"' :: value := by
      rw [hlead, ← hfront]
      simp
    rw [hcs] at hsome
    obtain ⟨found, hfound⟩ := Option.isSome_iff_exists.mp hsome
    -- Whichever place was found, its value stands behind the last quote too.
    obtain ⟨before, rest, hrest, other, -, gap, rfl, -, hquote⟩ :=
      exists_of_firstOpenValue? hfound
    rw [← List.append_assoc] at hrest
    rw [hfound, value_unique hquote hvalue hrest.symm]

/-- What stands before the cursor is the line cut at its offset. -/
theorem takeBytes_byteOffset (column : Nat) (line : List Char) :
    takeBytes (byteOffset column line) line = (splitColumn column line).1 := by
  have htake := takeBytes_byteSize (splitColumn column line).1 (splitColumn column line).2
  rwa [splitColumn_append] at htake

theorem ReferenceAttributes.completionAt?_eq_some_iff (r : ReferenceAttributes) (column : Nat)
    (line start : String) :
    r.completionAt? column line = some start ↔
      ∃ lead, takeBytes (byteOffset column line.toList) line.toList = lead ++ '"' :: start.toList ∧
        '"' ∉ start.toList ∧
        ∃ name ∈ r.idAttribute :: r.references, name.toList ++ ['='] <:+ trimEnd lead := by
  have hkeys : ∀ key ∈ r.keys, ∃ name, key = name ++ ['='] := by
    intro key hkey
    obtain ⟨name, -, rfl⟩ := List.mem_map.mp hkey
    exact ⟨name.toList, rfl⟩
  have hsearch : r.completionAt? column line = some start ↔
      firstOpenValue? r.keys (splitColumn column line.toList).1 = some start.toList := by
    rw [completionAt?, Option.map_eq_some_iff]
    constructor
    · rintro ⟨value, hvalue, rfl⟩
      rw [hvalue, String.toList_ofList]
    · intro h
      exact ⟨start.toList, h, String.ofList_toList⟩
  rw [hsearch, firstOpenValue?_eq_some_iff hkeys, takeBytes_byteOffset]
  simp only [keys, List.mem_map, exists_exists_and_eq_and]

end

end BehaviorIndex.Markup

/-! ## Names in the store -/

namespace BehaviorIndex

open Std
open BehaviorIndex.Text
open BehaviorIndex.Markup (byteOffset)

namespace Table

variable {t : Table}

/-- Every name has a location. -/
def Filled (t : Table) : Prop := ∀ name : String, t.byName[name]? ≠ some []

theorem filled_empty : Filled {} := by
  intro name
  simp

theorem Filled.removeFile (h : t.Filled) (file : FileId) : (t.removeFile file).1.Filled := by
  intro name
  rw [getElem?_removeFile]
  split_ifs
  · -- An entry that would be empty is dropped.
    simp [prune, Option.filter_eq_some_iff]
  · exact h name

theorem Filled.insert (h : t.Filled) (file : FileId) (name : String) (place : Location) :
    (t.insert file name place).Filled := by
  intro other
  rw [Table.insert, TreeMap.getElem?_insert]
  split_ifs
  · simp
  · exact h other

theorem Filled.replace (h : t.Filled) (file : FileId) (pairs : Definitions) :
    (t.replace file pairs).Filled := by
  have hstart := h.removeFile file
  rw [Table.replace]
  generalize (t.removeFile file).1 = start at hstart
  induction pairs generalizing start with
  | nil => exact hstart
  | cons pair pairs ih => exact ih _ (hstart.insert file pair.1 pair.2)

theorem Filled.mem_names_iff (h : t.Filled) (name : String) :
    name ∈ t.names ↔ t.lookup name ≠ [] := by
  have hname := h name
  rw [names, TreeMap.mem_keys, TreeMap.mem_iff_isSome_getElem?, lookup,
    TreeMap.getD_eq_getD_getElem?]
  cases hentry : t.byName[name]? with
  | none => simp
  | some places =>
    rw [hentry] at hname
    simpa using hname

end Table

namespace Store

/-- Every name of either kind has a location. -/
def Filled (s : Store) : Prop := ∀ kind, (s.table kind).Filled

theorem Filled.setTable {s : Store} {kind : Kind} {t : Table} (h : s.Filled) (ht : t.Filled) :
    (s.setTable kind t).Filled := by
  intro other
  by_cases hkind : other = kind
  · rw [hkind, table_setTable_self]
    exact ht
  · rw [table_setTable_of_ne s hkind]
    exact h other

/-- **One action.** -/
theorem Filled.apply {s : Store} (h : s.Filled) (action : Action) : (action.apply s).Filled := by
  cases action with
  | replace file kind pairs => exact h.setTable ((h kind).replace file pairs)
  | removeFile file kind => exact h.setTable ((h kind).removeFile file)
  | clearKind kind => exact h.setTable Table.filled_empty
  | clear =>
    intro kind
    cases kind <;> exact Table.filled_empty

/-- **All actions**, also such as put in definitions of other files. -/
theorem filled_run (actions : List Action) : (run actions).Filled := by
  induction actions using List.reverseRecOn with
  | nil =>
    intro kind
    cases kind <;> exact Table.filled_empty
  | append_singleton actions action ih =>
    rw [run, List.foldl_append, List.foldl_cons, List.foldl_nil]
    exact ih.apply action

end Store

/-! ## The names that are offered -/

namespace Workspace

theorem mem_completions_iff {w : Workspace} (h : w.store.Filled) (kind : Kind)
    (start name : String) :
    name ∈ w.completions kind start ↔
      w.lookup kind name ≠ [] ∧ start.toList <+: name.toList := by
  rw [completions, List.mem_filter, startsWith, List.isPrefixOf_iff_prefix]
  exact and_congr_left' ((h kind).mem_names_iff name)

theorem completions_ascending (w : Workspace) (kind : Kind) (start : String) :
    (w.completions kind start).Pairwise (· < ·) :=
  (Table.names_ascending (w.store.table kind)).filter _

/-- What is offered at a column of a line. -/
structure Offers (w : Workspace) (line : String) (column : Nat) : Prop where
  /-- A value is open behind the last quote before the cursor, if an attribute stands before it. -/
  value : ∀ start : String, w.settings.references.completionAt? column line = some start ↔
    ∃ lead, takeBytes (byteOffset column line.toList) line.toList = lead ++ '"' :: start.toList ∧
      '"' ∉ start.toList ∧
      ∃ name ∈ w.settings.markup.idAttribute :: w.settings.markup.referenceAttributes,
        name.toList ++ ['='] <:+ trimEnd lead
  ascending : (w.completeAt line column).Pairwise (· < ·)
  names : ∀ start : String, w.settings.references.completionAt? column line = some start →
    ∀ name : String, name ∈ w.completeAt line column ↔
      w.lookup .tree name ≠ [] ∧ start.toList <+: name.toList
  none : w.settings.references.completionAt? column line = none → w.completeAt line column = []

/-- **Completion.** The names with a location that begin as the value that is left open before the
cursor, in ascending order; none, if no value is. The store may come from any actions. -/
theorem completeAt_offers {w : Workspace} {actions : List Store.Action}
    (hstore : w.store = Store.run actions) (line : String) (column : Nat) :
    w.Offers line column := by
  have hfilled : w.store.Filled := by
    rw [hstore]
    exact Store.filled_run actions
  refine ⟨fun start => ?_, ?_, fun start hstart name => ?_, fun hnone => ?_⟩
  · exact w.settings.references.completionAt?_eq_some_iff column line start
  · cases hstart : w.settings.references.completionAt? column line with
    | none =>
      rw [completeAt, hstart]
      exact List.Pairwise.nil
    | some start =>
      rw [completeAt, hstart]
      exact w.completions_ascending .tree start
  · rw [completeAt, hstart]
    exact mem_completions_iff hfilled .tree start name
  · rw [completeAt, hnone]

/-- Three trees, two of which begin as the value that is typed. -/
def groveSpace : Workspace where
  settings := .defaults 1
  root := "/"
  store := .run [.replace ⟨1⟩ .tree [("Grip", ⟨⟨1⟩, 0, 0⟩), ("Go", ⟨⟨1⟩, 1, 0⟩)],
    .replace ⟨2⟩ .tree [("Grasp", ⟨⟨2⟩, 0, 0⟩)]]

/-- The attribute is found by the end of its name, and the cursor stands before the end of the
line. -/
theorem completeAt_offers_grove :
    let line := "<é MyID= \"Gr\"/>"
    groveSpace.Offers line 12 ∧
      groveSpace.settings.references.completionAt? 12 line = some "Gr" ∧
      groveSpace.completeAt line 12 = ["Grasp", "Grip"] := by
  intro line
  exact ⟨completeAt_offers rfl line 12, by decide +kernel, by decide +kernel⟩

end Workspace

end BehaviorIndex
