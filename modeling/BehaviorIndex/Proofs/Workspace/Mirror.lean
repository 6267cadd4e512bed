import BehaviorIndex.Proofs.Workspace.Indexed
import BehaviorIndex.Workspace.Query
import Mathlib.Data.Finset.Card

/-!
# What a workspace holds, by path

The store knows files by number, and the registry knows which path has which number. A *history*
says the same without numbers: which paths define what, the path that was indexed last at the end.
`Mirrors w paths histories` says that a workspace holds the histories of the two kinds, where
`paths` are the paths that were registered, in that order.

* `Registry.Registers`: the registry after some paths were registered.
* `History.numbered`: the log of the store that a history becomes once its paths have numbers.
* `Mirrors.register`, `Mirrors.renew`, `Mirrors.without`: what is done to a workspace is done to the
  histories.
* `Mirrors.sites_definitions`, `Mirrors.location_definitions`: the definitions that a workspace
  reports are those of the history, and no location is without its path.

To register a path changes no log, because paths keep their numbers, and to drop a number is to drop
its path, because no two paths share a number.
-/

namespace BehaviorIndex

/-! ## Histories -/

/-- Names with the lines and columns at which they are defined. -/
abbrev Sites := List (String × UInt32 × UInt32)

/-- The same definitions, in a file. -/
def Sites.placed (sites : Sites) (file : FileId) : Definitions :=
  sites.map fun site => (site.1, ⟨file, site.2.1, site.2.2⟩)

/-- What a text defines, with lines and columns. -/
def Source.Patterns.sites (p : Source.Patterns) (kind : Kind) (text : String) : Sites :=
  (p.scan kind text).map fun found =>
    (found.1, (Text.LineIndex.ofText text.toList).position found.2)

/-- Paths with what they define, the path that was indexed last at the end. -/
abbrev History := List (Path × Sites)

namespace History

/-- The history without a path, however it is written. -/
def without (h : History) (p : Path) : History := h.filter fun entry => entry.1.normal ≠ p.normal

/-- The history in which a path comes last with its new definitions. -/
def renew (h : History) (p : Path) (sites : Sites) : History := h.without p ++ [(p, sites)]

/-- Where a name is defined, in the order of the history. -/
def sites (h : History) (name : String) : List (Path × UInt32 × UInt32) :=
  h.flatMap fun entry =>
    (entry.2.filter fun site => site.1 = name).map fun site => (entry.1, site.2)

/-- The log with the numbers of the paths. A path that defines nothing has no entry in a log. -/
def numbered (h : History) (r : Registry) : Log :=
  h.filterMap fun entry =>
    if entry.2 = [] then none else (r.id? entry.1).map fun id => (id, entry.2.placed id)

end History

theorem Source.Patterns.locate_eq_placed (p : Source.Patterns) (file : FileId) (kind : Kind)
    (text : String) : p.locate file kind text = (p.sites kind text).placed file := by
  rw [locate, sites, Sites.placed, List.map_map]
  rfl

theorem Sites.placed_eq_nil {sites : Sites} {file : FileId} : sites.placed file = [] ↔ sites = [] :=
  List.map_eq_nil_iff

theorem Sites.file_of_mem_placed {sites : Sites} {file : FileId} :
    ∀ pair ∈ sites.placed file, pair.2.file = file := by
  intro pair h
  obtain ⟨site, -, rfl⟩ := List.mem_map.mp h
  rfl

theorem Sites.placesIn_placed (sites : Sites) (file : FileId) (name : String) :
    placesIn (sites.placed file) name =
      (sites.filter fun site => site.1 = name).map fun site => ⟨file, site.2.1, site.2.2⟩ := by
  rw [placesIn, placed, List.filter_map, List.map_map]
  rfl

/-! ## Registered paths -/

/-- How a path was first written, if it is among some paths, else the path itself. -/
def Path.firstOf (paths : List Path) (p : Path) : Path :=
  (paths.find? fun q => q.normal = p.normal).getD p

theorem Path.normal_firstOf (paths : List Path) (p : Path) :
    (Path.firstOf paths p).normal = p.normal := by
  rw [firstOf]
  cases h : paths.find? fun q => q.normal = p.normal with
  | none => rfl
  | some q => simpa using List.find?_some h

/-- Among paths that are all different, each is written as it is. -/
theorem Path.firstOf_eq_self {paths : List Path} (hnodup : (paths.map Path.normal).Nodup) {p : Path}
    (hp : p ∈ paths) : Path.firstOf paths p = p := by
  rw [firstOf]
  cases h : paths.find? fun q => q.normal = p.normal with
  | none => rfl
  | some q =>
    have hq : q.normal = p.normal := by simpa using List.find?_some h
    exact List.inj_on_of_nodup_map hnodup (List.mem_of_find?_eq_some h) hp hq

namespace Registry

/-- The registry holds some paths, each under the way it was first written. -/
structure Registers (r : Registry) (paths : List Path) : Prop where
  sound : r.Sound
  paired : r.Paired
  size : r.size = (paths.map Path.normal).toFinset.card
  mem_iff : ∀ p : Path, (r.id? p).isSome ↔ p.normal ∈ paths.map Path.normal
  path? : ∀ (p : Path) (id : FileId), r.id? p = some id → r.path? id = some (Path.firstOf paths p)

theorem registers_empty : Registers {} [] where
  sound := sound_empty
  paired := matched_empty.byPath
  size := rfl
  mem_iff p := by simp [id?]
  path? p id h := by simp [id?] at h

section

variable {r : Registry} {paths : List Path}

theorem Registers.firstOf_concat (h : r.Registers paths) {p q : Path} (hq : (r.id? q).isSome) :
    Path.firstOf (paths ++ [p]) q = Path.firstOf paths q := by
  obtain ⟨q', hq', hnormal⟩ := List.mem_map.mp ((h.mem_iff q).mp hq)
  have hfind : (paths.find? fun q' => q'.normal = q.normal).isSome :=
    List.find?_isSome.mpr ⟨q', hq', by simpa using hnormal⟩
  obtain ⟨first, hfirst⟩ := Option.isSome_iff_exists.mp hfind
  rw [Path.firstOf, Path.firstOf, List.find?_append, hfirst]
  rfl

theorem Registers.firstOf_concat_self (h : r.Registers paths) {p q : Path} (hp : r.id? p = none)
    (hpq : p.normal = q.normal) : Path.firstOf (paths ++ [p]) q = p := by
  have hfind : (paths.find? fun q' => q'.normal = q.normal) = none := by
    refine List.find?_eq_none.mpr fun q' hq' heq => ?_
    have hnormal : p.normal ∈ paths.map Path.normal :=
      List.mem_map.mpr ⟨q', hq', by rw [hpq]; simpa using heq⟩
    rw [← h.mem_iff, hp] at hnormal
    cases hnormal
  simp [Path.firstOf, List.find?_append, hfind, hpq]

theorem toFinset_normals_concat (paths : List Path) (p : Path) :
    ((paths ++ [p]).map Path.normal).toFinset =
      insert p.normal (paths.map Path.normal).toFinset := by
  ext q
  simp

theorem Registers.concat_of_id? (h : r.Registers paths) {p : Path} (hp : (r.id? p).isSome) :
    r.Registers (paths ++ [p]) where
  sound := h.sound
  paired := h.paired
  size := by
    rw [toFinset_normals_concat, Finset.insert_eq_of_mem, h.size]
    exact List.mem_toFinset.mpr ((h.mem_iff p).mp hp)
  mem_iff q := by
    rw [h.mem_iff, List.map_append, List.mem_append, List.map_singleton, List.mem_singleton]
    refine ⟨.inl, ?_⟩
    rintro (hq | hq)
    · exact hq
    · exact hq ▸ (h.mem_iff p).mp hp
  path? q id hq := by
    rw [h.firstOf_concat (by rw [hq]; rfl)]
    exact h.path? q id hq

/-- A path that is not registered gets the next number, as long as there is one. -/
theorem Registers.insert (h : r.Registers paths) (hr : r.Matched) {p : Path}
    (hp : r.id? p = none)
    (hregister : r.register p = ({ byPath := r.byPath.insert p.normal ⟨r.next⟩
                                   byId := r.byId.insert r.next p
                                   next := r.next + 1 }, some ⟨r.next⟩)) :
    (r.register p).1.Registers (paths ++ [p]) where
  sound := h.sound.register p
  paired := hr.paired_register p
  size := by
    have hnew : p.normal ∉ (paths.map Path.normal).toFinset := by
      rw [List.mem_toFinset, ← h.mem_iff, hp]
      simp
    rw [toFinset_normals_concat, Finset.card_insert_of_notMem hnew, ← h.size, hregister]
    exact hr.size_insert_next p
  mem_iff q := by
    rw [List.map_append, List.mem_append, List.map_singleton, List.mem_singleton, ← h.mem_iff]
    by_cases hq : p.normal = q.normal
    · have hself := id?_register_self (congrArg Prod.snd hregister)
      rw [id?_congr _ hq] at hself
      simp [hself, hq]
    · rw [id?_register_of_ne r hq]
      simp [Ne.symm hq]
  path? q id hq := by
    by_cases hpq : p.normal = q.normal
    · have hself := id?_register_self (congrArg Prod.snd hregister)
      rw [id?_congr _ hpq, hq] at hself
      cases hself
      rw [h.firstOf_concat_self hp hpq, hregister]
      exact Std.TreeMap.getElem?_insert_self
    · rw [id?_register_of_ne r hpq] at hq
      have hpath := h.path? q id hq
      have hne : r.next ≠ id.value := by
        intro heq
        rw [Registry.path?, ← heq, hr.getElem?_next] at hpath
        cases hpath
      rw [h.firstOf_concat (by rw [hq]; rfl), hregister, Registry.path?,
        Std.TreeMap.getElem?_insert, if_neg (by simpa using hne)]
      exact hpath

/-- **One path.** As long as there are numbers for all paths, each path gets one. -/
theorem Registers.register (h : r.Registers paths) {p : Path}
    (hroom : ((paths ++ [p]).map Path.normal).toFinset.card ≤ idCount) :
    (r.register p).1.Registers (paths ++ [p]) ∧ ∃ id, (r.register p).2 = some id := by
  by_cases hp : (r.id? p).isSome
  · obtain ⟨id, -, hr⟩ | ⟨hnone, -, -⟩ | ⟨hnone, -, -⟩ := r.register_cases p
    · rw [hr]
      exact ⟨h.concat_of_id? hp, id, rfl⟩
    all_goals
      rw [hnone] at hp
      cases hp
  · -- The path is new, so the registry is not full.
    have hnew : p.normal ∉ (paths.map Path.normal).toFinset := by
      rwa [List.mem_toFinset, ← h.mem_iff]
    have hmatch : r.Matched := by
      rw [toFinset_normals_concat, Finset.card_insert_of_notMem hnew, ← h.size] at hroom
      exact h.sound hroom
    obtain ⟨id, hid, -⟩ | ⟨hnone, -, hr⟩ | ⟨-, hnext, -⟩ := r.register_cases p
    · rw [hid] at hp
      exact absurd rfl hp
    · exact ⟨h.insert hmatch hnone hr, _, congrArg Prod.snd hr⟩
    · exact absurd hnext hmatch.next_ne_zero

end

end Registry

/-! ## Histories with numbers -/

namespace History

variable {r r' : Registry} {h : History} {p : Path} {file : FileId}

/-- A history keeps its numbers as long as its paths do. -/
theorem numbered_congr (hid : ∀ entry ∈ h, r'.id? entry.1 = r.id? entry.1) :
    h.numbered r' = h.numbered r := by
  refine List.filterMap_congr fun entry hentry => ?_
  rw [hid entry hentry]

/-- To drop a path is to drop its number. -/
theorem numbered_without (hr : r.Paired) (hp : r.id? p = some file) (h : History) :
    (h.without p).numbered r = (h.numbered r).without file := by
  rw [without, numbered, List.filterMap_filter, Log.without, numbered, List.filter_filterMap]
  refine List.filterMap_congr fun entry _ => ?_
  by_cases hnil : entry.2 = []
  · simp [hnil]
  · cases hid : r.id? entry.1 with
    | none => simp
    | some id =>
      have hiff : entry.1.normal = p.normal ↔ id = file := by
        constructor
        · intro heq
          rw [r.id?_congr heq, hp] at hid
          exact (Option.some_inj.mp hid).symm
        · rintro rfl
          exact hr.normal_eq_of_id? hid hp
      by_cases hfile : id = file <;> simp [Option.filter, hnil, hiff, hfile]

theorem numbered_renew (hr : r.Paired) (hp : r.id? p = some file) (h : History) (sites : Sites) :
    (h.renew p sites).numbered r = (h.numbered r).renew file (sites.placed file) := by
  have happend : (h.renew p sites).numbered r =
      (h.without p).numbered r ++ numbered [(p, sites)] r := List.filterMap_append
  rw [happend, numbered_without hr hp, Log.renew]
  by_cases hnil : sites = []
  · simp [hnil, numbered, Sites.placed]
  · rw [if_neg (mt Sites.placed_eq_nil.mp hnil)]
    simp [numbered, hnil, hp]

/-- The locations of a name, resolved to their paths, are those of the history. No location is
without a path. -/
theorem resolve_numbered {paths : List Path} (hr : r.Registers paths)
    (hknown : ∀ entry ∈ h, (r.id? entry.1).isSome) (name : String) :
    ((h.numbered r).places name).map (fun place => (r.path? place.file, place.line, place.column)) =
      (h.sites name).map fun site => (some (Path.firstOf paths site.1), site.2) := by
  induction h with
  | nil => rfl
  | cons entry h ih =>
    obtain ⟨hentry, hknown⟩ := List.forall_mem_cons.mp hknown
    obtain ⟨id, hid⟩ := Option.isSome_iff_exists.mp hentry
    have hplaces : (numbered (entry :: h) r).places name =
        placesIn (entry.2.placed id) name ++ (numbered h r).places name := by
      by_cases hnil : entry.2 = []
      · simp [numbered, hnil, Sites.placed]
      · simp [numbered, hnil, hid, Log.places]
    have hsites : sites (entry :: h) name =
        ((entry.2.filter fun site => site.1 = name).map fun site => (entry.1, site.2)) ++
          sites h name := List.flatMap_cons
    rw [hplaces, hsites, List.map_append, List.map_append, ih hknown, Sites.placesIn_placed,
      List.map_map, List.map_map]
    congr 1
    refine List.map_congr_left fun site _ => ?_
    simp [hr.path? _ _ hid]

end History

/-! ## Workspaces -/

/-- What a definition says of a file: path, line and column. -/
def Definition.site (d : Definition) : Path × UInt32 × UInt32 :=
  (d.path, d.location.line, d.location.column)

namespace Workspace

/-- The workspace holds the histories of the two kinds, under the numbers of their paths. -/
structure Mirrors (w : Workspace) (paths : List Path) (histories : Kind → History) : Prop where
  registry : w.registry.Registers paths
  known : ∀ kind, ∀ entry ∈ histories kind, (w.registry.id? entry.1).isSome
  store : w.store.Follows fun kind => (histories kind).numbered w.registry

theorem mirrors_new (d : Disk) (settings : Settings) (root : Path) :
    (new d settings root).Mirrors [] fun _ => [] where
  registry := Registry.registers_empty
  known := by simp
  store := Store.follows_empty

namespace Mirrors

variable {w : Workspace} {paths : List Path} {histories histories' : Kind → History} {p : Path}
  {file : FileId}

/-- To register a path changes no history. -/
theorem register (h : w.Mirrors paths histories)
    (hroom : ((paths ++ [p]).map Path.normal).toFinset.card ≤ Registry.idCount) :
    { w with registry := (w.registry.register p).1 }.Mirrors (paths ++ [p]) histories := by
  have hkeep : ∀ kind, ∀ entry ∈ histories kind,
      (w.registry.register p).1.id? entry.1 = w.registry.id? entry.1 := by
    intro kind entry hentry
    obtain ⟨id, hid⟩ := Option.isSome_iff_exists.mp (h.known kind entry hentry)
    rw [hid, Registry.id?_register_of_some hid]
  refine ⟨(h.registry.register hroom).1, fun kind entry hentry => ?_, fun kind => ?_⟩
  · rw [hkeep kind entry hentry]
    exact h.known kind entry hentry
  · show (w.store.table kind).Tracks ((histories kind).numbered (w.registry.register p).1)
    rw [History.numbered_congr (hkeep kind)]
    exact h.store kind

/-- What an action does to the logs of the store, it does to the histories. -/
theorem apply (h : w.Mirrors paths histories) {a : Store.Action} (ha : a.Owned)
    (hknown : ∀ kind, ∀ entry ∈ histories' kind, (w.registry.id? entry.1).isSome)
    (hrecord : ∀ kind, (histories' kind).numbered w.registry =
      a.record kind ((histories kind).numbered w.registry)) :
    { w with store := a.apply w.store }.Mirrors paths histories' := by
  refine ⟨h.registry, hknown, fun kind => ?_⟩
  show ((a.apply w.store).table kind).Tracks ((histories' kind).numbered w.registry)
  rw [hrecord]
  exact h.store.apply ha kind

theorem known_without (h : w.Mirrors paths histories) (kind : Kind) (p : Path) :
    ∀ entry ∈ (histories kind).without p, (w.registry.id? entry.1).isSome := fun entry hentry =>
  h.known kind entry (List.mem_of_mem_filter hentry)

/-- The definitions of a kind that a file has are replaced. -/
theorem renew (h : w.Mirrors paths histories) (hp : w.registry.id? p = some file) (k : Kind)
    (sites : Sites) :
    { w with store := (w.store.replace file k (sites.placed file)).1 }.Mirrors paths
      fun kind => if k = kind then (histories kind).renew p sites else histories kind := by
  refine h.apply (a := .replace file k (sites.placed file)) Sites.file_of_mem_placed
    (fun kind => ?_) fun kind => ?_
  · split_ifs with hk
    · refine List.forall_mem_append.mpr ⟨h.known_without kind p, ?_⟩
      simp [hp]
    · exact h.known kind
  · rw [Store.Action.record]
    split_ifs with hk
    · exact History.numbered_renew h.registry.paired hp _ sites
    · rfl

/-- The definitions of a kind that a file has are dropped. -/
theorem without (h : w.Mirrors paths histories) (hp : w.registry.id? p = some file) (k : Kind) :
    { w with store := (w.store.removeFile file k).1 }.Mirrors paths
      fun kind => if k = kind then (histories kind).without p else histories kind := by
  refine h.apply (a := .removeFile file k) trivial (fun kind => ?_) fun kind => ?_
  · split_ifs with hk
    · exact h.known_without kind p
    · exact h.known kind
  · rw [Store.Action.record]
    split_ifs with hk
    · exact History.numbered_without h.registry.paired hp _
    · rfl

/-! ### Answers -/

/-- The locations of a name, resolved to their paths, are those of the history. -/
theorem resolve_lookup (h : w.Mirrors paths histories) (kind : Kind) (name : String) :
    (w.lookup kind name).map
        (fun place => (w.registry.path? place.file, place.line, place.column)) =
      ((histories kind).sites name).map fun site => (some (Path.firstOf paths site.1), site.2) := by
  have hlookup : w.lookup kind name = ((histories kind).numbered w.registry).places name :=
    (Store.answers_of_tracks (h.store kind)).lookup name
  rw [hlookup]
  exact History.resolve_numbered h.registry (h.known kind) name

/-- The definitions of a name are those of the history, each with its path as first written. -/
theorem sites_definitions (h : w.Mirrors paths histories) (kind : Kind) (name : String) :
    (w.definitions kind name).map Definition.site =
      ((histories kind).sites name).map fun site => (Path.firstOf paths site.1, site.2) := by
  calc (w.definitions kind name).map Definition.site
      = ((w.lookup kind name).map
          fun place => (w.registry.path? place.file, place.line, place.column)).filterMap
            fun site => site.1.map fun path => (path, site.2) := by
        rw [definitions, List.map_filterMap, List.filterMap_map]
        refine List.filterMap_congr fun place _ => ?_
        rw [Option.map_map]
        rfl
    _ = ((histories kind).sites name).map fun site => (Path.firstOf paths site.1, site.2) := by
        rw [h.resolve_lookup, List.filterMap_map, ← List.filterMap_eq_map]
        rfl

/-- No location is without a definition. -/
theorem location_definitions (h : w.Mirrors paths histories) (kind : Kind) (name : String) :
    (w.definitions kind name).map Definition.location = w.lookup kind name := by
  have hpath : ∀ place ∈ w.lookup kind name, ∃ path, w.registry.path? place.file = some path := by
    intro place hplace
    have hmem := List.mem_map_of_mem
      (f := fun place => (w.registry.path? place.file, place.line, place.column)) hplace
    rw [h.resolve_lookup] at hmem
    obtain ⟨site, -, hsite⟩ := List.mem_map.mp hmem
    exact ⟨_, (congrArg Prod.fst hsite).symm⟩
  rw [definitions, List.map_filterMap]
  conv_rhs => rw [← List.filterMap_some (l := w.lookup kind name)]
  refine List.filterMap_congr fun place hplace => ?_
  obtain ⟨path, hpath⟩ := hpath place hplace
  rw [hpath]
  rfl

/-- The path of a definition has the number of its location. -/
theorem id?_of_mem_definitions (h : w.Mirrors paths histories) {kind : Kind} {name : String}
    {d : Definition} (hd : d ∈ w.definitions kind name) :
    d.name = name ∧ d.kind = kind ∧ w.registry.id? d.path = some d.location.file := by
  obtain ⟨place, -, hplace⟩ := List.mem_filterMap.mp hd
  obtain ⟨path, hpath, rfl⟩ := Option.map_eq_some_iff.mp hplace
  exact ⟨rfl, rfl, h.registry.paired.id?_of_path? hpath⟩

/-- The names are those that the history gives a site. -/
theorem mem_names (h : w.Mirrors paths histories) (kind : Kind) (name : String) :
    name ∈ w.store.names kind ↔ (histories kind).sites name ≠ [] := by
  rw [(Store.answers_of_tracks (h.store kind)).mem_names, Log.mem_names_iff, ne_eq, ne_eq,
    ← List.map_eq_nil_iff, History.resolve_numbered h.registry (h.known kind),
    List.map_eq_nil_iff]

end Mirrors

end Workspace

end BehaviorIndex
