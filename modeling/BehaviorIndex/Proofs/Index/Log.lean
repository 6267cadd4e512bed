import BehaviorIndex.Index.Location
import Mathlib.Algebra.BigOperators.Group.Finset.Basic
import Mathlib.Algebra.GroupWithZero.Nat

/-!
# Logs of definitions

A log says what the files of one kind define, one entry for each file, in the order in which the
files were last indexed. It is the plain form of what a table of the store keeps by name and by
file: the locations of a name are read off by going through the whole log.

A log is *well-formed* when no file has two entries, no entry is empty, and the locations of an
entry lie in its file. Then what a file defines can be told from the locations of the names
(`filter_places`), which is what allows a table to keep no entries.
-/

namespace BehaviorIndex

/-- Names with the locations at which they are defined. -/
abbrev Definitions := List (String × Location)

/-- Files with what they define, the file that was indexed last at the end. -/
abbrev Log := List (FileId × Definitions)

/-- The locations that some definitions give to a name. -/
def placesIn (pairs : Definitions) (name : String) : List Location :=
  (pairs.filter fun pair => pair.1 = name).map Prod.snd

namespace Log

/-- The log without a file. -/
def without (log : Log) (file : FileId) : Log := log.filter fun entry => entry.1 ≠ file

/-- The log in which a file comes last with its new definitions, and not at all if it has none. -/
def renew (log : Log) (file : FileId) (pairs : Definitions) : Log :=
  if pairs = [] then log.without file else log.without file ++ [(file, pairs)]

/-- The locations of a name, in the order of the log. -/
def places (log : Log) (name : String) : List Location :=
  log.flatMap fun entry => placesIn entry.2 name

/-- What a file defines. -/
def definitions (log : Log) (file : FileId) : Definitions := (log.lookup file).getD []

/-- The names that occur in the log. -/
def names (log : Log) : List String := log.flatMap fun entry => entry.2.map Prod.fst

structure WellFormed (log : Log) : Prop where
  nodup : (log.map Prod.fst).Nodup
  ne_nil : ∀ entry ∈ log, entry.2 ≠ []
  file_eq : ∀ entry ∈ log, ∀ pair ∈ entry.2, pair.2.file = entry.1

end Log

/-! ## The locations of a name -/

@[simp] theorem placesIn_nil (name : String) : placesIn [] name = [] := rfl

theorem placesIn_append (ps qs : Definitions) (name : String) :
    placesIn (ps ++ qs) name = placesIn ps name ++ placesIn qs name := by
  simp [placesIn]

theorem placesIn_singleton (n name : String) (place : Location) :
    placesIn [(n, place)] name = if n = name then [place] else [] := by
  unfold placesIn
  split_ifs with h <;> simp [h]

theorem placesIn_eq_nil {pairs : Definitions} {name : String} :
    placesIn pairs name = [] ↔ name ∉ pairs.map Prod.fst := by
  simp only [placesIn, List.map_eq_nil_iff, List.filter_eq_nil_iff, decide_eq_true_eq,
    List.mem_map, not_exists, not_and]

theorem length_placesIn (pairs : Definitions) (name : String) :
    (placesIn pairs name).length = (pairs.map Prod.fst).count name := by
  rw [placesIn, List.length_map, List.count, List.countP_map, List.countP_eq_length_filter]
  congr 2

/-- Distinct names that include all those of some definitions share out their number. -/
theorem sum_length_placesIn {pairs : Definitions} {names : List String} (hn : names.Nodup)
    (hp : ∀ name ∈ pairs.map Prod.fst, name ∈ names) :
    (names.map fun name => (placesIn pairs name).length).sum = pairs.length := by
  simp only [length_placesIn]
  rw [← List.sum_toFinset _ hn]
  have hcard := Multiset.sum_count_eq_card (s := names.toFinset)
    (m := (pairs.map Prod.fst : Multiset String)) (by simpa using hp)
  simpa using hcard

namespace Log

theorem mem_names_iff {log : Log} {name : String} : name ∈ log.names ↔ log.places name ≠ [] := by
  simp only [names, places, ne_eq, List.flatMap_eq_nil_iff, placesIn_eq_nil, List.mem_flatMap,
    not_forall, not_not, exists_prop]

@[simp] theorem places_append (log log' : Log) (name : String) :
    places (log ++ log') name = log.places name ++ log'.places name :=
  List.flatMap_append

theorem without_append (log log' : Log) (file : FileId) :
    without (log ++ log') file = log.without file ++ log'.without file :=
  List.filter_append ..

theorem places_renew (log : Log) (file : FileId) (pairs : Definitions) (name : String) :
    (log.renew file pairs).places name =
      (log.without file).places name ++ placesIn pairs name := by
  unfold renew
  split_ifs with h
  · simp [h]
  · simp [places]

/-! ## What a file defines -/

theorem definitions_cons (f : FileId) (pairs : Definitions) (log : Log) (file : FileId) :
    definitions ((f, pairs) :: log) file = if f = file then pairs else log.definitions file := by
  unfold definitions
  by_cases h : f = file
  · simp [h]
  · rw [List.lookup_cons, if_neg h, show (file == f) = false by simpa using Ne.symm h]

theorem definitions_eq_nil {log : Log} {file : FileId} (h : file ∉ log.map Prod.fst) :
    log.definitions file = [] := by
  induction log with
  | nil => rfl
  | cons entry log ih =>
    simp only [List.map_cons, List.mem_cons, not_or] at h
    rw [definitions_cons, if_neg (Ne.symm h.1), ih h.2]

theorem definitions_append {log log' : Log} {file : FileId} (h : file ∉ log.map Prod.fst) :
    definitions (log ++ log') file = log'.definitions file := by
  induction log with
  | nil => rfl
  | cons entry log ih =>
    simp only [List.map_cons, List.mem_cons, not_or] at h
    rw [List.cons_append, definitions_cons, if_neg (Ne.symm h.1), ih h.2]

theorem notMem_files_without (log : Log) (file : FileId) :
    file ∉ (log.without file).map Prod.fst := by
  simp [without]

theorem definitions_without (log : Log) (file other : FileId) :
    (log.without file).definitions other = if other = file then [] else log.definitions other := by
  split_ifs with h
  · exact definitions_eq_nil (h ▸ notMem_files_without log file)
  · induction log with
    | nil => rfl
    | cons entry log ih =>
      rw [definitions_cons, without, List.filter_cons]
      split_ifs with hf ho ho
      · rw [definitions_cons, if_pos ho]
      · rw [definitions_cons, if_neg ho]
        exact ih
      · simp only [ne_eq, decide_not, Bool.not_eq_eq_eq_not, Bool.not_true, decide_eq_false_iff_not,
          not_not] at hf
        exact absurd (ho ▸ hf) h
      · exact ih

theorem definitions_renew (log : Log) (file other : FileId) (pairs : Definitions) :
    (log.renew file pairs).definitions other =
      if other = file then pairs else log.definitions other := by
  unfold renew
  split_ifs with hp ho ho
  · rw [definitions_without, if_pos ho, hp]
  · rw [definitions_without, if_neg ho]
  · subst ho
    rw [definitions_append (notMem_files_without log other), definitions_cons, if_pos rfl]
  · rw [show log.definitions other = (log.without file).definitions other by
      rw [definitions_without, if_neg ho]]
    -- The new entry stands behind the old ones and is about another file.
    generalize log.without file = kept
    induction kept with
    | nil => rw [List.nil_append, definitions_cons, if_neg (Ne.symm ho)]
    | cons entry kept ih => rw [List.cons_append, definitions_cons, definitions_cons, ih]

/-! ## Well-formed logs -/

theorem wellFormed_nil : WellFormed [] :=
  ⟨List.nodup_nil, by simp, by simp⟩

theorem WellFormed.without {log : Log} (h : log.WellFormed) (file : FileId) :
    (log.without file).WellFormed where
  nodup := h.nodup.sublist (List.filter_sublist.map _)
  ne_nil entry he := h.ne_nil entry (List.mem_of_mem_filter he)
  file_eq entry he := h.file_eq entry (List.mem_of_mem_filter he)

theorem WellFormed.renew {log : Log} (h : log.WellFormed) {file : FileId} {pairs : Definitions}
    (hp : ∀ pair ∈ pairs, pair.2.file = file) : (log.renew file pairs).WellFormed := by
  have hw := h.without file
  unfold Log.renew
  split_ifs with hnil
  · exact hw
  · refine ⟨?_, ?_, ?_⟩
    · rw [List.map_append, List.nodup_append]
      refine ⟨hw.nodup, List.nodup_singleton _, ?_⟩
      intro f hf g hg hfg
      rw [List.map_singleton, List.mem_singleton] at hg
      rw [hfg, hg] at hf
      exact notMem_files_without log file hf
    · intro entry he
      rcases List.mem_append.mp he with he | he
      · exact hw.ne_nil entry he
      · rw [List.mem_singleton] at he
        exact he ▸ hnil
    · intro entry he
      rcases List.mem_append.mp he with he | he
      · exact hw.file_eq entry he
      · rw [List.mem_singleton] at he
        exact he ▸ hp

theorem mem_file_of_mem_placesIn {pairs : Definitions} {file : FileId}
    (h : ∀ pair ∈ pairs, pair.2.file = file) {name : String} {place : Location}
    (hp : place ∈ placesIn pairs name) : place.file = file := by
  obtain ⟨pair, hpair, rfl⟩ := List.mem_map.mp hp
  exact h pair (List.mem_of_mem_filter hpair)

theorem WellFormed.tail {entry : FileId × Definitions} {log : Log}
    (h : WellFormed (entry :: log)) : log.WellFormed :=
  ⟨(List.nodup_cons.mp h.nodup).2, fun e he => h.ne_nil e (List.mem_cons_of_mem _ he),
    fun e he => h.file_eq e (List.mem_cons_of_mem _ he)⟩

/-- The locations of a well-formed log outside a file are those of the log without the file. -/
theorem WellFormed.filter_places_ne {log : Log} (h : log.WellFormed) (file : FileId)
    (name : String) :
    (log.places name).filter (fun place => place.file != file) =
      (log.without file).places name := by
  induction log with
  | nil => rfl
  | cons entry log ih =>
    have hfile : ∀ place ∈ placesIn entry.2 name, place.file = entry.1 := fun place hp =>
      mem_file_of_mem_placesIn (h.file_eq entry List.mem_cons_self) hp
    rw [← List.singleton_append, places_append, List.filter_append, ih h.tail, without_append,
      places_append]
    congr 1
    by_cases he : entry.1 = file
    · have : ∀ place ∈ placesIn entry.2 name, ¬(place.file != file) = true := fun place hp => by
        simp [hfile place hp, he]
      simpa [places, Log.without, he] using this
    · have : ∀ place ∈ placesIn entry.2 name, (place.file != file) = true := fun place hp => by
        simp [hfile place hp, he]
      simpa [places, Log.without, he] using this

/-- The locations of a well-formed log in a file are those that the file's definitions give. -/
theorem WellFormed.filter_places {log : Log} (h : log.WellFormed) (file : FileId)
    (name : String) :
    (log.places name).filter (fun place => place.file == file) =
      placesIn (log.definitions file) name := by
  induction log with
  | nil => rfl
  | cons entry log ih =>
    have hfile : ∀ place ∈ placesIn entry.2 name, place.file = entry.1 := fun place hp =>
      mem_file_of_mem_placesIn (h.file_eq entry List.mem_cons_self) hp
    rw [← List.singleton_append, places_append, List.filter_append, ih h.tail,
      List.singleton_append, definitions_cons]
    have hnot := (List.nodup_cons.mp h.nodup).1
    split_ifs with he
    · rw [definitions_eq_nil (he ▸ hnot), placesIn_nil, List.append_nil]
      have : ∀ place ∈ placesIn entry.2 name, (place.file == file) = true := fun place hp => by
        simp [hfile place hp, he]
      simpa [places] using this
    · have : ∀ place ∈ placesIn entry.2 name, ¬(place.file == file) = true := fun place hp => by
        simp [hfile place hp, he]
      simpa [places] using this

end Log

end BehaviorIndex
