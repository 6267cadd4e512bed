import BehaviorIndex.Index.Store
import BehaviorIndex.Proofs.Index.Log
import Std.Data.TreeMap.Lemmas
import Std.Data.TreeSet.Lemmas

/-!
# Tables track logs

A table keeps the locations by name and, for each file, the names that it defines. `Table.Tracks`
says that these are the locations and names of a log:

* *entries*: a name has an entry exactly when it has a location in the log, and the entry lists
  these locations with the last one first, and
* *reverse entries*: the names recorded for a file are those that it defines in the log.

A file is removed by way of its recorded names alone. That this drops all of its locations, and
counts each of them once, is where both parts of the invariant are needed (`Tracks.removeFile`).
-/

namespace BehaviorIndex.Table

open Std

/-! ## Dropping names -/

/-- What an entry becomes when the locations in a file are dropped. An empty entry is dropped as a
whole. -/
def prune (file : FileId) (entry : Option (List Location)) : Option (List Location) :=
  (entry.map fun places => places.filter fun place => place.file != file).filter (· ≠ [])

theorem getElem?_dropName (file : FileId) (entries : TreeMap String (List Location))
    (name other : String) :
    (dropName file entries name).1[other]? =
      if name = other then prune file entries[name]? else entries[other]? := by
  unfold dropName prune
  cases h : entries[name]? with
  | none =>
    split_ifs with ho
    · simp [← ho, h]
    · rfl
  | some places =>
    by_cases hk : (places.filter fun place => place.file != file) = []
    · simp [hk, TreeMap.getElem?_erase, Option.filter_some]
    · simp [hk, TreeMap.getElem?_insert, Option.filter_some]

/-- How many locations in a file an entry lists. -/
def countIn (file : FileId) (entry : Option (List Location)) : Nat :=
  ((entry.getD []).filter fun place => place.file == file).length

theorem dropName_snd (file : FileId) (entries : TreeMap String (List Location)) (name : String) :
    (dropName file entries name).2 = countIn file entries[name]? := by
  unfold dropName countIn
  cases h : entries[name]? with
  | none => rfl
  | some places =>
    have hlen := List.length_eq_length_filter_add (l := places) fun place => place.file == file
    have hne : (places.filter fun place => !(place.file == file)) =
        places.filter fun place => place.file != file := rfl
    rw [hne] at hlen
    simp only [Option.getD_some]
    omega

theorem getElem?_dropNames (file : FileId) (entries : TreeMap String (List Location))
    {names : List String} (hn : names.Nodup) (other : String) :
    (dropNames file entries names).1[other]? =
      if other ∈ names then prune file entries[other]? else entries[other]? := by
  induction names generalizing entries with
  | nil => simp [dropNames]
  | cons name names ih =>
    obtain ⟨hname, hn⟩ := List.nodup_cons.mp hn
    simp only [dropNames, ih _ hn, getElem?_dropName, List.mem_cons]
    by_cases ho : name = other
    · subst ho
      simp [hname]
    · simp [ho, Ne.symm ho]

theorem dropNames_snd (file : FileId) (entries : TreeMap String (List Location))
    {names : List String} (hn : names.Nodup) :
    (dropNames file entries names).2 = (names.map fun name => countIn file entries[name]?).sum := by
  induction names generalizing entries with
  | nil => rfl
  | cons name names ih =>
    obtain ⟨hname, hn⟩ := List.nodup_cons.mp hn
    simp only [dropNames, ih _ hn, dropName_snd, List.map_cons, List.sum_cons]
    congr 2
    -- The other names keep their entries.
    refine List.map_congr_left fun other ho => ?_
    rw [getElem?_dropName, if_neg fun h : name = other => hname (h ▸ ho)]

/-! ## Names -/

theorem names_ascending (t : Table) : t.names.Pairwise (· < ·) :=
  t.byName.ordered_keys.imp fun h => compareOfLessAndEq_eq_lt.mp h

/-! ## Removing a file -/

/-- The names recorded for a file. -/
def recorded (t : Table) (file : FileId) : TreeSet String := t.byFile.getD file.value ∅

theorem recorded_of_none {t : Table} {file : FileId} (h : t.byFile[file.value]? = none) :
    t.recorded file = ∅ := by
  rw [recorded, TreeMap.getD_eq_getD_getElem?, h, Option.getD_none]

theorem recorded_of_some {t : Table} {file : FileId} {names : TreeSet String}
    (h : t.byFile[file.value]? = some names) : t.recorded file = names := by
  rw [recorded, TreeMap.getD_eq_getD_getElem?, h, Option.getD_some]

theorem nodup_toList (names : TreeSet String) : names.toList.Nodup :=
  names.distinct_toList.imp ReflCmp.ne_of_cmp_ne_eq

theorem getElem?_removeFile (t : Table) (file : FileId) (name : String) :
    (t.removeFile file).1.byName[name]? =
      if name ∈ t.recorded file then prune file t.byName[name]? else t.byName[name]? := by
  unfold removeFile
  cases h : t.byFile[file.value]? with
  | none => simp [recorded_of_none h]
  | some names =>
    rw [recorded_of_some h]
    simp only [getElem?_dropNames file t.byName (nodup_toList names), TreeSet.mem_toList]

theorem recorded_removeFile (t : Table) (file other : FileId) :
    (t.removeFile file).1.recorded other = if other = file then ∅ else t.recorded other := by
  unfold removeFile
  cases h : t.byFile[file.value]? with
  | none =>
    split_ifs with ho
    · rw [ho, recorded_of_none h]
    · rfl
  | some names =>
    simp only [recorded, TreeMap.getD_erase]
    by_cases ho : other = file
    · simp [ho]
    · have : file.value ≠ other.value := fun hv => ho (by cases file; cases other; simp_all)
      simp [ho, this]

theorem removeFile_snd (t : Table) (file : FileId) :
    (t.removeFile file).2 =
      ((t.recorded file).toList.map fun name => countIn file t.byName[name]?).sum := by
  unfold removeFile
  cases h : t.byFile[file.value]? with
  | none =>
    rw [recorded_of_none h]
    rfl
  | some names =>
    rw [recorded_of_some h]
    simp only [dropNames_snd file t.byName (nodup_toList names)]

/-! ## One further definition -/

theorem recorded_insert (t : Table) (file other : FileId) (name : String) (place : Location) :
    (t.insert file name place).recorded other =
      if other = file then (t.recorded file).insert name else t.recorded other := by
  simp only [recorded, Table.insert, TreeMap.getD_insert]
  by_cases ho : other = file
  · simp [ho]
  · have : file.value ≠ other.value := fun hv => ho (by cases file; cases other; simp_all)
    simp [ho, this]

/-! ## The invariant -/

/-- A table holds what a log says. -/
structure Tracks (t : Table) (log : Log) : Prop where
  wellFormed : log.WellFormed
  byName : ∀ name, t.byName[name]? =
    if log.places name = [] then none else some (log.places name).reverse
  byFile : ∀ (file : FileId) (name : String), name ∈ t.recorded file ↔
    name ∈ (log.definitions file).map Prod.fst

namespace Tracks

variable {t : Table} {log : Log}

theorem getD_byName (h : t.Tracks log) (name : String) :
    t.byName.getD name [] = (log.places name).reverse := by
  rw [TreeMap.getD_eq_getD_getElem?, h.byName]
  split_ifs with hp <;> simp [hp]

theorem contains_iff (h : t.Tracks log) (name : String) :
    t.contains name = true ↔ log.places name ≠ [] := by
  rw [contains, TreeMap.contains_eq_isSome_getElem?, h.byName]
  split_ifs with hp <;> simp [hp]

theorem empty : Tracks {} [] where
  wellFormed := Log.wellFormed_nil
  byName name := by simp [Log.places]
  byFile file name := by simp [Log.definitions, recorded_of_none]

theorem prune_byName (h : t.Tracks log) (file : FileId) (name : String) :
    prune file t.byName[name]? =
      if (log.without file).places name = [] then none
      else some ((log.without file).places name).reverse := by
  rw [h.byName, ← h.wellFormed.filter_places_ne]
  unfold prune
  split_ifs with hp hk hk <;> simp_all [Option.filter_some]

theorem countIn_byName (h : t.Tracks log) (file : FileId) (name : String) :
    countIn file t.byName[name]? = (placesIn (log.definitions file) name).length := by
  rw [countIn, ← TreeMap.getD_eq_getD_getElem?, h.getD_byName, List.filter_reverse,
    List.length_reverse, h.wellFormed.filter_places]

/-- A name that is not recorded for a file keeps its locations when the file is dropped. -/
theorem places_without_of_notMem (h : t.Tracks log) {file : FileId} {name : String}
    (hn : name ∉ t.recorded file) :
    (log.without file).places name = log.places name := by
  rw [← h.wellFormed.filter_places_ne, List.filter_eq_self]
  rw [h.byFile, ← placesIn_eq_nil, ← h.wellFormed.filter_places, List.filter_eq_nil_iff] at hn
  intro place hp
  simpa using hn place hp

/-- Removing a file takes its entry out of the log. -/
theorem removeFile (h : t.Tracks log) (file : FileId) :
    (t.removeFile file).1.Tracks (log.without file) where
  wellFormed := h.wellFormed.without file
  byName name := by
    rw [getElem?_removeFile]
    by_cases hn : name ∈ t.recorded file
    · rw [if_pos hn]
      exact h.prune_byName file name
    · rw [if_neg hn, h.places_without_of_notMem hn]
      exact h.byName name
  byFile other name := by
    rw [recorded_removeFile, Log.definitions_without]
    split_ifs
    · simp
    · exact h.byFile other name

/-- Removing a file tells how many definitions it had. -/
theorem removeFile_snd (h : t.Tracks log) (file : FileId) :
    (t.removeFile file).2 = (log.definitions file).length := by
  rw [Table.removeFile_snd]
  simp only [h.countIn_byName]
  refine sum_length_placesIn (nodup_toList _) fun name hn => ?_
  rwa [TreeSet.mem_toList, h.byFile]

/-! ## Replacing what a file defines -/

/-- A further definition of the file that was indexed last comes at the end of its entry. -/
theorem insert {file : FileId} {pairs : Definitions} {name : String} {place : Location}
    (hlog : log.WellFormed) (h : t.Tracks (log.renew file pairs)) (hp : place.file = file)
    (hps : ∀ pair ∈ pairs, pair.2.file = file) :
    (t.insert file name place).Tracks (log.renew file (pairs ++ [(name, place)])) where
  wellFormed := hlog.renew fun pair hpair => by
    rcases List.mem_append.mp hpair with hpair | hpair
    · exact hps pair hpair
    · rw [List.mem_singleton] at hpair
      rw [hpair]
      exact hp
  byName other := by
    rw [Log.places_renew, placesIn_append, placesIn_singleton, ← List.append_assoc,
      ← Log.places_renew, Table.insert, TreeMap.getElem?_insert, h.getD_byName, h.byName]
    by_cases ho : name = other
    · simp [ho]
    · simp [ho]
  byFile other n := by
    rw [recorded_insert, Log.definitions_renew]
    split_ifs with ho
    · have := h.byFile file n
      rw [Log.definitions_renew, if_pos rfl] at this
      rw [TreeSet.mem_insert, this, LawfulEqCmp.compare_eq_iff_eq, List.map_append,
        List.mem_append, List.map_singleton, List.mem_singleton, or_comm, eq_comm]
    · have := h.byFile other n
      rwa [Log.definitions_renew, if_neg ho] at this

/-- Replacing what a file defines moves its entry to the end of the log. -/
theorem replace (h : t.Tracks log) {file : FileId} {pairs : Definitions}
    (hp : ∀ pair ∈ pairs, pair.2.file = file) :
    (t.replace file pairs).Tracks (log.renew file pairs) := by
  have hstart : (t.removeFile file).1.Tracks (log.renew file []) := h.removeFile file
  -- One insertion after the other, with the pairs that are already in.
  suffices ∀ (ps qs : Definitions) (t : Table), t.Tracks (log.renew file ps) →
      (∀ pair ∈ ps ++ qs, pair.2.file = file) →
      (qs.foldl (fun t pair => t.insert file pair.1 pair.2) t).Tracks
        (log.renew file (ps ++ qs)) from this [] pairs _ hstart hp
  intro ps qs
  induction qs generalizing ps with
  | nil =>
    intro t ht _
    rwa [List.append_nil]
  | cons q qs ih =>
    intro t ht hall
    rw [List.append_cons] at hall ⊢
    refine ih (ps ++ [q]) _ ?_ hall
    exact insert h.wellFormed ht (hall q (by simp)) fun pair hpair => hall pair (by simp [hpair])

end Tracks

end BehaviorIndex.Table
