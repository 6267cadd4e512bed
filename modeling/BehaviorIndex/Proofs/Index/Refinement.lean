import BehaviorIndex.Proofs.Index.Table

/-!
# The store refines a pair of logs

Clients change a store by actions, each of which takes the lock of its kind. What any number of
clients do together is therefore one sequence of actions, whichever way they are interleaved. Only
`clear` takes two locks, one after the other, so another client can come in between: its halves are
actions of their own (`clearKind`), and `clear` is the case in which no client does.

**Theorem (`answers_run`).** After every sequence of actions from the empty store, every question
about the store is answered as the logs of the two kinds answer it.

The invariant is `Follows`: the table of each kind tracks the log of that kind. Each action keeps
it, and the answers are read off it.
-/

namespace BehaviorIndex.Store

/-! ## Actions -/

inductive Action where
  | replace (file : FileId) (kind : Kind) (pairs : Definitions)
  | removeFile (file : FileId) (kind : Kind)
  | clearKind (kind : Kind)
  | clear

namespace Action

/-- The definitions that are put in lie in their file. -/
def Owned : Action → Prop
  | replace file _ pairs => ∀ pair ∈ pairs, pair.2.file = file
  | _ => True

/-- The action changes the definitions of a kind. -/
def Touches (kind : Kind) : Action → Prop
  | replace _ k _ | removeFile _ k | clearKind k => k = kind
  | clear => True

def apply (s : Store) : Action → Store
  | replace file kind pairs => (s.replace file kind pairs).1
  | removeFile file kind => (s.removeFile file kind).1
  | clearKind kind => s.setTable kind {}
  | clear => s.clear

/-- What an action does to the log of a kind. -/
def record (kind : Kind) (log : Log) : Action → Log
  | replace file k pairs => if k = kind then log.renew file pairs else log
  | removeFile file k => if k = kind then log.without file else log
  | clearKind k => if k = kind then [] else log
  | clear => []

end Action

/-- The store after some actions. -/
def run (actions : List Action) : Store := actions.foldl Action.apply {}

/-- The log of a kind after some actions. -/
def logOf (kind : Kind) (actions : List Action) : Log := actions.foldl (Action.record kind) []

/-! ## The invariant -/

/-- The table of each kind tracks its log. -/
def Follows (s : Store) (logs : Kind → Log) : Prop := ∀ kind, (s.table kind).Tracks (logs kind)

theorem follows_empty : Follows {} fun _ => [] := fun kind => by
  cases kind <;> exact Table.Tracks.empty

theorem Follows.setTable {s : Store} {logs logs' : Kind → Log} (h : s.Follows logs) {kind : Kind}
    {t : Table} (ht : t.Tracks (logs' kind)) (hne : ∀ k, kind ≠ k → logs' k = logs k) :
    (s.setTable kind t).Follows logs' := by
  intro k
  by_cases hk : kind = k
  · subst hk
    rwa [table_setTable_self]
  · rw [table_setTable_of_ne s (Ne.symm hk), hne k hk]
    exact h k

/-- **One action.** The logs follow the store through every action that puts in definitions of its
own file only. -/
theorem Follows.apply {s : Store} {logs : Kind → Log} (h : s.Follows logs) {a : Action}
    (ha : a.Owned) : (a.apply s).Follows fun kind => a.record kind (logs kind) := by
  cases a with
  | replace file kind pairs =>
    refine h.setTable ?_ fun k hk => if_neg hk
    rw [Action.record, if_pos rfl]
    exact (h kind).replace ha
  | removeFile file kind =>
    refine h.setTable ?_ fun k hk => if_neg hk
    rw [Action.record, if_pos rfl]
    exact (h kind).removeFile file
  | clearKind kind =>
    refine h.setTable ?_ fun k hk => if_neg hk
    rw [Action.record, if_pos rfl]
    exact Table.Tracks.empty
  | clear => exact follows_empty

theorem follows_run {actions : List Action} (h : ∀ a ∈ actions, a.Owned) :
    (run actions).Follows fun kind => logOf kind actions := by
  -- From any store that follows its logs, by induction on the actions still to come.
  suffices ∀ (s : Store) (logs : Kind → Log), s.Follows logs →
      (actions.foldl Action.apply s).Follows
        fun kind => actions.foldl (Action.record kind) (logs kind) from
    this {} (fun _ => []) follows_empty
  induction actions with
  | nil => exact fun s logs hs => hs
  | cons a actions ih =>
    intro s logs hs
    exact ih (fun b hb => h b (List.mem_cons_of_mem _ hb)) _ _ (hs.apply (h a List.mem_cons_self))

/-! ## The locations of one file -/

/-- The locations of a name that lie in a file. -/
def locationsIn (s : Store) (kind : Kind) (file : FileId) (name : String) : List Location :=
  (s.lookup kind name).filter fun place => place.file == file

theorem Follows.locationsIn {s : Store} {logs : Kind → Log} (h : s.Follows logs) (kind : Kind)
    (file : FileId) (name : String) :
    s.locationsIn kind file name = placesIn ((logs kind).definitions file) name := by
  rw [Store.locationsIn, Store.lookup, Table.lookup, (h kind).getD_byName, List.reverse_reverse,
    (h kind).wellFormed.filter_places]

theorem Follows.locationsIn_replace {s : Store} {logs : Kind → Log} (h : s.Follows logs)
    {file : FileId} {pairs : Definitions} (hp : ∀ pair ∈ pairs, pair.2.file = file)
    (kind k : Kind) (other : FileId) (name : String) :
    (s.replace file kind pairs).1.locationsIn k other name =
      if kind = k ∧ other = file then placesIn pairs name else s.locationsIn k other name := by
  have h' : (s.replace file kind pairs).1.Follows _ := h.apply (a := .replace file kind pairs) hp
  rw [h'.locationsIn, h.locationsIn, Action.record]
  by_cases hk : kind = k
  · rw [if_pos hk, Log.definitions_renew]
    by_cases ho : other = file
    · rw [if_pos ho, if_pos ⟨hk, ho⟩]
    · rw [if_neg ho, if_neg fun h => ho h.2]
  · rw [if_neg hk, if_neg fun h => hk h.1]

/-- To remove a file is to replace what it defines by nothing. -/
theorem removeFile_eq_replace (s : Store) (file : FileId) (kind : Kind) :
    (s.removeFile file kind).1 = (s.replace file kind []).1 := rfl

theorem Follows.locationsIn_removeFile {s : Store} {logs : Kind → Log} (h : s.Follows logs)
    (file : FileId) (kind k : Kind) (other : FileId) (name : String) :
    (s.removeFile file kind).1.locationsIn k other name =
      if kind = k ∧ other = file then [] else s.locationsIn k other name := by
  rw [removeFile_eq_replace, h.locationsIn_replace (by simp), placesIn_nil]

/-! ## Answers -/

/-- Every question about the definitions of a kind is answered as a log answers it. -/
structure Answers (s : Store) (kind : Kind) (log : Log) : Prop where
  lookup : ∀ name, s.lookup kind name = log.places name
  contains : ∀ name, s.contains kind name = true ↔ log.places name ≠ []
  names_ascending : (s.names kind).Pairwise (· < ·)
  mem_names : ∀ name, name ∈ s.names kind ↔ name ∈ log.names
  size : s.size kind = (s.names kind).length
  removed : ∀ file, (s.removeFile file kind).2 = (log.definitions file).length
  inserted : ∀ file pairs, (s.replace file kind pairs).2 = pairs.length

theorem answers_of_tracks {s : Store} {kind : Kind} {log : Log}
    (h : (s.table kind).Tracks log) : s.Answers kind log where
  lookup name := by rw [Store.lookup, Table.lookup, h.getD_byName, List.reverse_reverse]
  contains name := h.contains_iff name
  names_ascending := Table.names_ascending (s.table kind)
  mem_names name := by
    rw [Log.mem_names_iff, ← h.contains_iff]
    exact Std.TreeMap.mem_keys
  size := Std.TreeMap.length_keys.symm
  removed file := h.removeFile_snd file
  inserted _ _ := rfl

theorem Answers.size_eq_zero_iff {s : Store} {kind : Kind} {log : Log} (h : s.Answers kind log) :
    s.size kind = 0 ↔ ∀ entry ∈ log, entry.2 = [] := by
  rw [h.size, List.length_eq_zero_iff, List.eq_nil_iff_forall_not_mem]
  simp only [h.mem_names]
  rw [← List.eq_nil_iff_forall_not_mem, Log.names, List.flatMap_eq_nil_iff]
  simp only [List.map_eq_nil_iff]

theorem isEmpty_iff {s : Store} {logs : Kind → Log} (h : ∀ kind, s.Answers kind (logs kind)) :
    s.isEmpty = true ↔ ∀ kind, ∀ entry ∈ logs kind, entry.2 = [] := by
  have hall : s.isEmpty = true ↔ ∀ kind, s.size kind = 0 := by
    simp only [isEmpty, Kind.all, List.all_cons, List.all_nil, Bool.and_true, Bool.and_eq_true,
      beq_iff_eq]
    constructor
    · rintro ⟨ht, hn⟩ (_ | _)
      · exact ht
      · exact hn
    · intro h
      exact ⟨h .tree, h .node⟩
  rw [hall]
  exact forall_congr' fun kind => (h kind).size_eq_zero_iff

/-- An action has no effect on the kinds that it does not touch. -/
theorem table_apply_of_not_touches (s : Store) {a : Action} {kind : Kind} (h : ¬a.Touches kind) :
    (a.apply s).table kind = s.table kind := by
  cases a with
  | replace file k pairs => exact table_setTable_of_ne s (Ne.symm h) _
  | removeFile file k => exact table_setTable_of_ne s (Ne.symm h) _
  | clearKind k => exact table_setTable_of_ne s (Ne.symm h) _
  | clear => exact absurd trivial h

/-- Two stores answer alike about a kind. -/
structure SameAnswers (kind : Kind) (s s' : Store) : Prop where
  lookup : ∀ name, s.lookup kind name = s'.lookup kind name
  contains : ∀ name, s.contains kind name = s'.contains kind name
  names : s.names kind = s'.names kind
  size : s.size kind = s'.size kind
  removed : ∀ file, (s.removeFile file kind).2 = (s'.removeFile file kind).2

theorem sameAnswers_of_table_eq {kind : Kind} {s s' : Store} (h : s.table kind = s'.table kind) :
    SameAnswers kind s s' := by
  constructor <;>
    simp only [Store.lookup, Store.contains, Store.names, Store.size, Store.removeFile, h,
      implies_true]

/-- **The store refines its logs.** After any actions that put in definitions of their own files
only, no file is twice in a log, the store answers about each kind as its log does, it is empty
exactly when no log holds a definition, and no action changes an answer about a kind that it does
not touch. -/
theorem answers_run (actions : List Action) (h : ∀ a ∈ actions, a.Owned) :
    (∀ kind, ((logOf kind actions).map Prod.fst).Nodup ∧
      (run actions).Answers kind (logOf kind actions)) ∧
    ((run actions).isEmpty = true ↔ ∀ kind, ∀ entry ∈ logOf kind actions, entry.2 = []) ∧
    ∀ (a : Action) (kind : Kind), ¬a.Touches kind →
      SameAnswers kind (a.apply (run actions)) (run actions) := by
  have hf := follows_run h
  have hans : ∀ kind, (run actions).Answers kind (logOf kind actions) := fun kind =>
    answers_of_tracks (hf kind)
  refine ⟨fun kind => ⟨(hf kind).wellFormed.nodup, hans kind⟩, isEmpty_iff hans, ?_⟩
  intro a kind ha
  exact sameAnswers_of_table_eq (table_apply_of_not_touches _ ha)

/-- Two files define the same name, and the first of them is indexed again: its definition moves
behind that of the second. -/
theorem lookup_run_reindexed :
    (run [.replace ⟨1⟩ .tree [("N", ⟨⟨1⟩, 3, 0⟩)], .replace ⟨2⟩ .tree [("N", ⟨⟨2⟩, 1, 0⟩)],
      .replace ⟨1⟩ .tree [("N", ⟨⟨1⟩, 4, 0⟩)]]).lookup .tree "N" =
      [⟨⟨2⟩, 1, 0⟩, ⟨⟨1⟩, 4, 0⟩] := by
  have h := answers_run [.replace ⟨1⟩ .tree [("N", ⟨⟨1⟩, 3, 0⟩)],
    .replace ⟨2⟩ .tree [("N", ⟨⟨2⟩, 1, 0⟩)], .replace ⟨1⟩ .tree [("N", ⟨⟨1⟩, 4, 0⟩)]]
    (by simp [Action.Owned])
  rw [(h.1 .tree).2.lookup]
  decide

end BehaviorIndex.Store
