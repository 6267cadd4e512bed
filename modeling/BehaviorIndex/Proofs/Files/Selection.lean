import BehaviorIndex.Files.Walk
import BehaviorIndex.Proofs.Files.Canonical
import Mathlib.Data.List.Induction

/-!
# Which files a walk lists

**Theorem (`mem_walk_iff`).** A walk lists a path with a kind exactly if the path is a *candidate*
of that kind (`Candidate`: a file below the root that is not hidden and has an extension of the
kind) and no ignore rule excludes it or a directory on the way to it (`isExcluded`).

The walk carries the rules of the directories it is in. These are the rules of all directories above
the path that it looks at, those above the root included, so `isExcluded` can collect them from the
path alone. The walk stops at a depth that depends on the number of entries, and never too early,
because the beginnings of a path that it follows are different entries (`length_le_size`).

What is excluded depends on the rules only (`SameRules.isExcluded`), and those stay the same while
no ignore file is written (`sameRules_insert_file`). Where there is no ignore file, nothing is
excluded (`Bare.isExcluded`).
-/

namespace BehaviorIndex

namespace Disk

open BehaviorIndex.Path (Plain plain_append plain_cons)

/-- The path is canonical and leads from the root through plain names. -/
def Below (root p : Path) : Prop :=
  ∃ more, Plain (root.names ++ more) ∧ p = pathOf (root.names ++ more)

section

variable {d : Disk} {here names more : List String}

theorem isFile_pathOf_iff (h : Plain names) :
    d.isFile (pathOf names) = true ↔
      d.Opens [] names ∧ ∃ content, d.at? (pathOf names) = some (.file content) := by
  have hresolve := fun p => @resolve_pathOf_iff d names h p
  rw [isFile, entry?]
  cases hr : d.resolve (pathOf names) with
  | error fault =>
    constructor
    · intro hfile
      simp [Except.toOption] at hfile
    · rintro ⟨hopens, content, hentry⟩
      have hok := (hresolve _).mpr ⟨rfl, hopens, by simp [hentry]⟩
      rw [hr] at hok
      cases hok
  | ok p =>
    obtain ⟨rfl, hopens, -⟩ := (hresolve p).mp hr
    simp only [Except.toOption, Option.bind_some]
    cases hat : d.at? (pathOf names) with
    | none => simp
    | some entry => cases entry <;> simp [hopens]

/-- Where a way leads to an entry, it begins at one. -/
theorem isSome_of_opens (hopens : d.Opens here more)
    (hentry : (d.at? (pathOf (here ++ more))).isSome) : (d.at? (pathOf here)).isSome := by
  cases more with
  | nil => rwa [List.append_nil] at hentry
  | cons name more =>
    rw [hopens.1]
    rfl

/-- The names in a directory include each plain name with an entry. -/
theorem mem_names {name : String} (h : Plain (here ++ [name]))
    (hentry : (d.at? (pathOf (here ++ [name]))).isSome) : name ∈ d.names (pathOf here) := by
  rw [d.at?_pathOf_of_ne_nil h (by simp), ← Std.TreeMap.mem_iff_isSome_getElem?,
    ← Std.TreeMap.mem_keys] at hentry
  rw [Disk.names, List.mem_filterMap]
  refine ⟨_, hentry, ?_⟩
  rw [fileName?_pathOf_concat h, Option.filter_some, if_pos (by simp [join_pathOf h])]

/-- A name in a directory is the last name of an entry below it. -/
theorem of_mem_names {p q : Path} {name : String}
    (h : q.fileName?.filter (fun name => p.join name == q) = some name) :
    q.fileName? = some name ∧ p.join name = q := by
  obtain ⟨hname, hjoin⟩ := Option.filter_eq_some_iff.mp h
  exact ⟨hname, by simpa using hjoin⟩

theorem plain_of_mem_names {p : Path} {name : String} (h : name ∈ d.names p) : Plain [name] := by
  rw [Disk.names, List.mem_filterMap] at h
  obtain ⟨q, -, hq⟩ := h
  exact Path.plain_singleton_of_fileName? (of_mem_names hq).1

/-- No name is twice in a directory. -/
theorem nodup_names (d : Disk) (p : Path) : (d.names p).Nodup := by
  have hkeys : d.entries.keys.Nodup := Std.TreeMap.nodup_keys
  refine hkeys.filterMap fun q q' name hq hq' => ?_
  exact (of_mem_names hq).2.symm.trans (of_mem_names hq').2

/-- The paths on the way along names from a directory, the last one included. -/
def pathsAlong (here : List String) : List String → List Path
  | [] => []
  | name :: names => pathOf (here ++ [name]) :: pathsAlong (here ++ [name]) names

theorem exists_of_mem_pathsAlong {p : Path} (h : p ∈ pathsAlong here names) :
    ∃ front back, names = front ++ back ∧ front ≠ [] ∧ p = pathOf (here ++ front) := by
  induction names generalizing here with
  | nil => cases h
  | cons name names ih =>
    rcases List.mem_cons.mp h with rfl | h
    · exact ⟨[name], names, rfl, by simp, rfl⟩
    · obtain ⟨front, back, rfl, -, rfl⟩ := ih h
      exact ⟨name :: front, back, rfl, by simp, by simp⟩

theorem nodup_pathsAlong (h : Plain (here ++ names)) : (pathsAlong here names).Nodup := by
  induction names generalizing here with
  | nil => exact List.nodup_nil
  | cons name names ih =>
    have hconcat : here ++ name :: names = here ++ [name] ++ names := by simp
    rw [hconcat] at h
    refine List.nodup_cons.mpr ⟨fun hmem => ?_, ih h⟩
    obtain ⟨front, back, rfl, hfront, heq⟩ := exists_of_mem_pathsAlong hmem
    rw [← List.append_assoc] at h
    have hplain := (plain_append.mp h).1
    have hnames := (pathOf_inj (plain_append.mp hplain).1 hplain).mp heq
    exact hfront (List.self_eq_append_right.mp hnames)

/-- A way is not longer than there are entries. -/
theorem length_le_size (h : Plain (here ++ names)) (hopens : d.Opens here names)
    (hentry : (d.at? (pathOf (here ++ names))).isSome) : names.length ≤ d.entries.size := by
  have hlength : (pathsAlong here names).length = names.length := by
    clear h hopens hentry
    induction names generalizing here with
    | nil => rfl
    | cons name names ih => rw [pathsAlong, List.length_cons, ih, List.length_cons]
  rw [← hlength, ← Std.TreeMap.length_keys]
  refine (nodup_pathsAlong h).length_le_of_subset fun p hp => ?_
  obtain ⟨front, back, rfl, hfront, rfl⟩ := exists_of_mem_pathsAlong hp
  rw [← List.append_assoc] at h hentry
  have hsome := isSome_of_opens (opens_append.mp hopens).2 hentry
  rw [d.at?_pathOf_of_ne_nil (plain_append.mp h).1 (by simp [hfront])] at hsome
  rwa [Std.TreeMap.mem_keys, Std.TreeMap.mem_iff_isSome_getElem?]

end

end Disk

namespace Walk

open Disk (pathOf Opens Below)
open BehaviorIndex.Path (Plain plain_append plain_cons plain_nil)

/-- The rules that count inside a directory: its own, and those of the directories above it. -/
def levels (d : Disk) (directory : Path) : List Level := directory.ancestors.map (level d)

/-- A rule excludes the path along names from a directory, or a directory on the way. All but the
last name are those of directories. -/
def excludedFrom (d : Disk) (here : List String) : List String → Bool
  | [] => false
  | name :: more =>
    isIgnored (levels d (pathOf here)) (pathOf (here ++ [name])) (!more.isEmpty) ||
      excludedFrom d (here ++ [name]) more

/-- A rule excludes a path below the root, or a directory between the root and the path. -/
def isExcluded (d : Disk) (root p : Path) : Bool :=
  excludedFrom d root.names (p.names.drop root.names.length)

/-- What a walk asks of a file, ignore rules apart. -/
structure Candidate (d : Disk) (indexing : Settings.Indexing) (root : Path) (kind : Kind)
    (p : Path) : Prop where
  below : Below root p
  isFile : d.isFile p = true
  visible : p.isHidden = false
  kind : indexing.kindOf? p = some kind

section

variable {d : Disk} {here more : List String}

/-- The entry at a canonical path is a directory. -/
def isDirectoryAt (d : Disk) (p : Path) : Bool :=
  match d.at? p with
  | some .directory => true
  | _ => false

/-- On the way to a file, what is not the last is a directory. -/
theorem isDirectoryAt_eq (hopens : d.Opens here more)
    (hfile : ∃ content, d.at? (pathOf (here ++ more)) = some (.file content)) :
    isDirectoryAt d (pathOf here) = !more.isEmpty := by
  rw [isDirectoryAt]
  cases more with
  | nil =>
    obtain ⟨content, hcontent⟩ := hfile
    rw [List.append_nil] at hcontent
    rw [hcontent]
    rfl
  | cons name more =>
    rw [hopens.1]
    rfl

theorem filesBelow_of_file {p : Path} {content : ByteArray}
    (h : d.at? p = some (.file content)) (depth : Nat) (above : List Level) :
    filesBelow d (depth + 1) above p = [p] := by
  simp only [filesBelow, h]

/-- The files below a directory are those below its names that are not ignored. -/
theorem filesBelow_of_directory {p : Path} (h : d.at? p = some .directory) (depth : Nat)
    (above : List Level) :
    filesBelow d (depth + 1) above p = (d.names p).flatMap fun name =>
      if isIgnored (level d p :: above) (p.join name) (isDirectoryAt d (p.join name)) then []
      else filesBelow d depth (level d p :: above) (p.join name) := by
  simp only [filesBelow, h]
  rfl

theorem mem_filesBelow_of_directory {p q : Path} (h : d.at? p = some .directory) {depth : Nat}
    {above : List Level} :
    q ∈ filesBelow d (depth + 1) above p ↔
      ∃ name ∈ d.names p,
        isIgnored (level d p :: above) (p.join name) (isDirectoryAt d (p.join name)) = false ∧
          q ∈ filesBelow d depth (level d p :: above) (p.join name) := by
  rw [filesBelow_of_directory h, List.mem_flatMap]
  refine exists_congr fun name => and_congr_right fun _ => ?_
  split
  · next hignored => simp [hignored]
  · next hignored => simp [hignored]

theorem levels_concat {name : String} (h : Plain (here ++ [name])) :
    levels d (pathOf (here ++ [name])) =
      level d (pathOf (here ++ [name])) :: levels d (pathOf here) := by
  rw [levels, Disk.ancestors_pathOf_concat h, List.map_cons, levels]

/-- The rules that a walk carries are those of the directories above. -/
theorem level_cons_levels {name : String} (h : Plain (here ++ [name])) {above : List Level}
    (habove : level d (pathOf here) :: above = levels d (pathOf here)) :
    level d (pathOf (here ++ [name])) :: level d (pathOf here) :: above =
      levels d (pathOf (here ++ [name])) := by
  rw [levels_concat h, habove]

theorem exists_of_mem_filesBelow (hplain : Plain here) {depth : Nat} {above : List Level}
    (habove : level d (pathOf here) :: above = levels d (pathOf here)) {p : Path}
    (hp : p ∈ filesBelow d depth above (pathOf here)) :
    ∃ more, Plain (here ++ more) ∧ p = pathOf (here ++ more) ∧ d.Opens here more ∧
      (∃ content, d.at? p = some (.file content)) ∧ excludedFrom d here more = false := by
  induction depth generalizing here above with
  | zero => cases hp
  | succ depth ih =>
    cases hentry : d.at? (pathOf here) with
    | none => simp [filesBelow, hentry] at hp
    | some entry =>
      cases entry with
      | file content =>
        rw [filesBelow_of_file hentry, List.mem_singleton] at hp
        subst hp
        exact ⟨[], by simpa using hplain, by simp, trivial, ⟨content, hentry⟩, rfl⟩
      | directory =>
        obtain ⟨name, hname, hignored, hp⟩ := (mem_filesBelow_of_directory hentry).mp hp
        have hconcat : Plain (here ++ [name]) :=
          plain_append.mpr ⟨hplain, Disk.plain_of_mem_names hname⟩
        rw [Disk.join_pathOf hconcat] at hignored hp
        obtain ⟨more, hmore, rfl, hopens, hfile, hexcluded⟩ :=
          ih hconcat (level_cons_levels hconcat habove) hp
        rw [isDirectoryAt_eq hopens hfile, habove] at hignored
        refine ⟨name :: more, by simpa using hmore, by simp, ⟨hentry, hopens⟩, hfile, ?_⟩
        rw [excludedFrom, hignored, hexcluded, Bool.or_false]

theorem mem_filesBelow {depth : Nat} {above : List Level}
    (habove : level d (pathOf here) :: above = levels d (pathOf here))
    (hmore : Plain (here ++ more)) (hlength : more.length < depth) (hopens : d.Opens here more)
    (hfile : ∃ content, d.at? (pathOf (here ++ more)) = some (.file content))
    (hexcluded : excludedFrom d here more = false) :
    pathOf (here ++ more) ∈ filesBelow d depth above (pathOf here) := by
  induction more generalizing here above depth with
  | nil =>
    obtain ⟨depth, rfl⟩ := Nat.exists_eq_succ_of_ne_zero (Nat.ne_zero_of_lt hlength)
    obtain ⟨content, hcontent⟩ := hfile
    rw [List.append_nil] at hcontent ⊢
    rw [filesBelow_of_file hcontent]
    exact List.mem_singleton_self _
  | cons name more ih =>
    obtain ⟨depth, rfl⟩ := Nat.exists_eq_succ_of_ne_zero (Nat.ne_zero_of_lt hlength)
    have happend : here ++ name :: more = here ++ [name] ++ more := by simp
    rw [happend] at hmore hfile ⊢
    have hconcat := (plain_append.mp hmore).1
    rw [excludedFrom, Bool.or_eq_false_iff] at hexcluded
    refine (mem_filesBelow_of_directory hopens.1).mpr ⟨name, ?_, ?_, ?_⟩
    · obtain ⟨content, hcontent⟩ := hfile
      refine Disk.mem_names hconcat (Disk.isSome_of_opens hopens.2 ?_)
      rw [hcontent]
      rfl
    · rw [Disk.join_pathOf hconcat, isDirectoryAt_eq hopens.2 hfile, habove, hexcluded.1]
    · rw [Disk.join_pathOf hconcat]
      exact ih (level_cons_levels hconcat habove) hmore (Nat.lt_of_succ_lt_succ hlength) hopens.2
        hfile hexcluded.2

/-- What is found by a name of a directory lies below this name. -/
theorem exists_of_mem_filesBelow_join (hplain : Plain here) {depth : Nat} {above : List Level}
    (habove : level d (pathOf here) :: above = levels d (pathOf here)) {name : String}
    (hname : name ∈ d.names (pathOf here)) {p : Path}
    (hp : p ∈ filesBelow d depth (level d (pathOf here) :: above) ((pathOf here).join name)) :
    ∃ more, Plain (here ++ name :: more) ∧ p = pathOf (here ++ name :: more) := by
  have hconcat : Plain (here ++ [name]) :=
    plain_append.mpr ⟨hplain, Disk.plain_of_mem_names hname⟩
  rw [Disk.join_pathOf hconcat] at hp
  obtain ⟨more, hmore, hpath, -⟩ :=
    exists_of_mem_filesBelow hconcat (level_cons_levels hconcat habove) hp
  rw [List.append_assoc, List.singleton_append] at hmore hpath
  exact ⟨more, hmore, hpath⟩

/-- No file is listed twice: what is found below different names of a directory is different. -/
theorem nodup_filesBelow (hplain : Plain here) {depth : Nat} {above : List Level}
    (habove : level d (pathOf here) :: above = levels d (pathOf here)) :
    (filesBelow d depth above (pathOf here)).Nodup := by
  induction depth generalizing here above with
  | zero => exact List.nodup_nil
  | succ depth ih =>
    cases hentry : d.at? (pathOf here) with
    | none => simp [filesBelow, hentry]
    | some entry =>
      cases entry with
      | file content =>
        rw [filesBelow_of_file hentry]
        exact List.nodup_singleton _
      | directory =>
        rw [filesBelow_of_directory hentry]
        refine List.nodup_flatMap.mpr ⟨fun name hname => ?_, ?_⟩
        · have hconcat : Plain (here ++ [name]) :=
            plain_append.mpr ⟨hplain, Disk.plain_of_mem_names hname⟩
          split
          · exact List.nodup_nil
          · rw [Disk.join_pathOf hconcat]
            exact ih hconcat (level_cons_levels hconcat habove)
        · refine (d.nodup_names (pathOf here)).imp_of_mem ?_
          intro name name' hname hname' hne p hp hp'
          obtain ⟨more, hmore, hpath⟩ :=
            exists_of_mem_filesBelow_join hplain habove hname (List.mem_ite_nil_left.mp hp).2
          obtain ⟨more', hmore', hpath'⟩ :=
            exists_of_mem_filesBelow_join hplain habove hname' (List.mem_ite_nil_left.mp hp').2
          have hnames := (Disk.pathOf_inj hmore hmore').mp (hpath.symm.trans hpath')
          exact hne (List.cons.inj (List.append_cancel_left hnames)).1

/-- The rules above the root that a walk begins with. -/
theorem level_cons_above (h : Plain here) :
    level d (pathOf here) :: (match (pathOf here).parent? with
      | some p => p.ancestors.map (level d)
      | none => []) = levels d (pathOf here) := by
  rcases List.eq_nil_or_concat here with rfl | ⟨front, last, rfl⟩
  · rw [Disk.parent?_pathOf_nil, levels, Disk.ancestors_pathOf_nil]
    rfl
  · rw [List.concat_eq_append] at h ⊢
    rw [Disk.parent?_pathOf_concat h, levels_concat h]
    rfl

/-- **All files below a root.** -/
theorem mem_files_iff (h : Plain here) {p : Path} :
    p ∈ files d (pathOf here) ↔
      ∃ more, Plain (here ++ more) ∧ p = pathOf (here ++ more) ∧ d.isFile p = true ∧
        excludedFrom d here more = false := by
  rw [files]
  constructor
  · intro hp
    split at hp
    · cases hp
    · next root hresolve =>
      obtain ⟨rfl, hroot, -⟩ := (Disk.resolve_pathOf_iff h).mp hresolve
      obtain ⟨more, hmore, rfl, hopens, hfile, hexcluded⟩ :=
        exists_of_mem_filesBelow h (level_cons_above h) hp
      refine ⟨more, hmore, rfl, ?_, hexcluded⟩
      exact (Disk.isFile_pathOf_iff hmore).mpr ⟨Disk.opens_append.mpr ⟨hroot, hopens⟩, hfile⟩
  · rintro ⟨more, hmore, rfl, hisFile, hexcluded⟩
    obtain ⟨hall, content, hcontent⟩ := (Disk.isFile_pathOf_iff hmore).mp hisFile
    obtain ⟨hroot, hopens⟩ := Disk.opens_append.mp hall
    have hentry : (d.at? (pathOf (here ++ more))).isSome := by simp [hcontent]
    have hresolve := (Disk.resolve_pathOf_iff h).mpr
      ⟨rfl, hroot, Disk.isSome_of_opens hopens hentry⟩
    have hlength := Disk.length_le_size hmore hopens hentry
    rw [hresolve]
    exact mem_filesBelow (level_cons_above h) hmore (by omega) hopens ⟨content, hcontent⟩ hexcluded

theorem isExcluded_pathOf {root : Path} (h : Plain (root.names ++ more)) :
    isExcluded d root (pathOf (root.names ++ more)) = excludedFrom d root.names more := by
  rw [isExcluded, Disk.names_pathOf h, List.drop_left]

/-- **Which files a walk lists.** Candidates that no rule excludes. -/
theorem mem_walk_iff (h : Plain here) {indexing : Settings.Indexing} {p : Path} {kind : Kind} :
    (p, kind) ∈ walk d indexing (pathOf here) ↔
      Candidate d indexing (pathOf here) kind p ∧ isExcluded d (pathOf here) p = false := by
  have hnames := Disk.names_pathOf h
  have hexcluded : ∀ more, Plain (here ++ more) →
      isExcluded d (pathOf here) (pathOf (here ++ more)) = excludedFrom d here more := by
    intro more hmore
    have hpath := @isExcluded_pathOf d more (pathOf here)
    rw [hnames] at hpath
    exact hpath hmore
  simp only [walk, List.mem_filterMap, mem_files_iff h]
  constructor
  · rintro ⟨q, ⟨more, hmore, rfl, hisFile, hmoreExcluded⟩, hq⟩
    split at hq
    · cases hq
    · next hvisible =>
      obtain ⟨k, hkind, hpair⟩ := Option.map_eq_some_iff.mp hq
      obtain ⟨rfl, rfl⟩ := Prod.mk.inj hpair
      refine ⟨⟨⟨more, ?_, ?_⟩, hisFile, by simpa using hvisible, hkind⟩, ?_⟩
      · rwa [hnames]
      · rw [hnames]
      · rwa [hexcluded more hmore]
  · rintro ⟨⟨⟨more, hmore, rfl⟩, hisFile, hvisible, hkind⟩, hmoreExcluded⟩
    rw [hnames] at hmore hisFile hvisible hkind hmoreExcluded ⊢
    rw [hexcluded more hmore] at hmoreExcluded
    refine ⟨_, ⟨more, hmore, rfl, hisFile, hmoreExcluded⟩, ?_⟩
    rw [if_neg (by simp [hvisible]), hkind]
    rfl

/-- **A walk lists no file twice**, however its root is written. -/
theorem nodup_walk (d : Disk) (indexing : Settings.Indexing) (root : Path) :
    ((walk d indexing root).map fun file => file.1.normal).Nodup := by
  have hfiles : (files d root).Nodup ∧ ∀ p ∈ files d root, p.normal = p := by
    rw [files]
    split
    · exact ⟨List.nodup_nil, by simp⟩
    · next root' hresolve =>
      obtain ⟨names, hplain, rfl⟩ := Disk.exists_pathOf_of_resolve hresolve
      refine ⟨nodup_filesBelow hplain (level_cons_above hplain), fun p hp => ?_⟩
      obtain ⟨more, hmore, rfl, -⟩ :=
        exists_of_mem_filesBelow hplain (level_cons_above hplain) hp
      exact Disk.normal_pathOf hmore
  have hfst : ∀ {p : Path} {file : Path × Kind}, (if p.isHidden then none
      else (indexing.kindOf? p).map fun kind => (p, kind)) = some file → file.1 = p := by
    intro p file hfile
    split at hfile
    · cases hfile
    · obtain ⟨kind, -, rfl⟩ := Option.map_eq_some_iff.mp hfile
      rfl
  rw [List.Nodup, List.pairwise_map, walk, List.pairwise_filterMap]
  refine hfiles.1.imp_of_mem fun {p p'} hp hp' hne file hfile file' hfile' heq => hne ?_
  rw [← hfiles.2 p hp, ← hfiles.2 p' hp', ← hfst hfile, ← hfst hfile', heq]

end

/-! ## Changes that keep the rules -/

/-- The directories of the two disks have the same rules. -/
def SameRules (d d' : Disk) : Prop :=
  ∀ names, Plain names → level d' (pathOf names) = level d (pathOf names)

section

variable {d d' : Disk} {here more : List String}

theorem SameRules.levels (h : SameRules d d') (hhere : Plain here) :
    levels d' (pathOf here) = levels d (pathOf here) := by
  induction here using List.reverseRecOn with
  | nil => rw [Walk.levels, Walk.levels, Disk.ancestors_pathOf_nil, List.map_singleton,
      List.map_singleton, h [] plain_nil]
  | append_singleton front last ih =>
    rw [levels_concat hhere, levels_concat hhere, h _ hhere, ih (plain_append.mp hhere).1]

theorem SameRules.excludedFrom (h : SameRules d d') (hplain : Plain (here ++ more)) :
    excludedFrom d' here more = excludedFrom d here more := by
  induction more generalizing here with
  | nil => rfl
  | cons name more ih =>
    have happend : here ++ name :: more = here ++ [name] ++ more := by simp
    rw [Walk.excludedFrom, Walk.excludedFrom, h.levels (plain_append.mp hplain).1,
      ih (happend ▸ hplain)]

/-- Which paths are excluded depends on the rules only. -/
theorem SameRules.isExcluded (h : SameRules d d') {root p : Path} (hp : Below root p) :
    isExcluded d' root p = isExcluded d root p := by
  obtain ⟨more, hmore, rfl⟩ := hp
  rw [isExcluded_pathOf hmore, isExcluded_pathOf hmore, h.excludedFrom hmore]

theorem level_congr {directory : Path} (h : ∀ source ∈ sources,
      (d'.readBytes (directory.join source)).toOption =
        (d.readBytes (directory.join source)).toOption) :
    level d' directory = level d directory := by
  rw [level, level, Level.mk.injEq]
  refine ⟨rfl, List.map_congr_left fun source hsource => ?_⟩
  have hsame := h source hsource
  cases hd : d.readBytes (directory.join source) <;>
    cases hd' : d'.readBytes (directory.join source) <;>
    simp only [hd, hd', Except.toOption, reduceCtorEq, Option.some.injEq] at hsame ⊢
  rw [hsame]

/-- The names of ignore files are plain. -/
theorem plain_source : ∀ source ∈ sources, Plain source.names ∧ source.names ≠ [] ∧
    "/".intercalate source.names = source := by
  simp only [Plain, Path.IsName]
  decide

theorem join_source (h : Plain here) {source : Path} (hsource : source ∈ sources) :
    Plain (here ++ source.names) ∧
      (pathOf here).join source = pathOf (here ++ source.names) := by
  obtain ⟨hplain, hne, hsame⟩ := plain_source source hsource
  have happend := plain_append.mpr ⟨h, hplain⟩
  have hjoin := Disk.join_pathOf_intercalate happend hne
  rw [hsame] at hjoin
  exact ⟨happend, hjoin⟩

/-- A file that is written leaves the rules as they are, unless it is an ignore file. -/
theorem sameRules_insert_file {q : Path} (hq : d.at? q ≠ some .directory)
    (hsource : ∀ names, Plain names → ∀ source ∈ sources, (pathOf names).join source ≠ q)
    (content : ByteArray) :
    SameRules d { d with entries := d.entries.insert q (.file content) } := by
  refine fun names hnames => level_congr fun source hmem => ?_
  obtain ⟨hplain, hjoin⟩ := join_source hnames hmem
  have hne := hsource names hnames source hmem
  rw [hjoin] at hne ⊢
  exact Disk.readBytes_insert_file_of_ne hq hplain hne

/-! ## Disks without rules -/

/-- There is no ignore file on the disk. -/
def Bare (d : Disk) : Prop :=
  ∀ names, Plain names → ∀ source ∈ sources, ∀ content,
    d.at? (pathOf (names ++ source.names)) ≠ some (.file content)

theorem Bare.level (h : Bare d) (hhere : Plain here) :
    level d (pathOf here) = ⟨pathOf here, sources.map fun _ => []⟩ := by
  rw [Walk.level, Level.mk.injEq]
  refine ⟨rfl, List.map_congr_left fun source hsource => ?_⟩
  obtain ⟨hplain, hjoin⟩ := join_source hhere hsource
  rw [hjoin]
  split
  · next content hread =>
    exact absurd ((Disk.readBytes_pathOf_iff hplain).mp hread).2 (h here hhere source hsource content)
  · rfl

theorem Bare.levels (h : Bare d) (hhere : Plain here) {l : Level}
    (hl : l ∈ levels d (pathOf here)) : l.rules = sources.map fun _ => [] := by
  induction here using List.reverseRecOn with
  | nil =>
    rw [Walk.levels, Disk.ancestors_pathOf_nil, List.map_singleton, h.level plain_nil] at hl
    rw [List.mem_singleton.mp hl]
  | append_singleton front last ih =>
    rw [levels_concat hhere, h.level hhere] at hl
    rcases List.mem_cons.mp hl with rfl | hl
    · rfl
    · exact ih (plain_append.mp hhere).1 hl

theorem isIgnored_eq_false {ls : List Level} (h : ∀ l ∈ ls, l.rules = sources.map fun _ => [])
    (p : Path) (isDirectory : Bool) : isIgnored ls p isDirectory = false := by
  have hverdict : ∀ source, verdictOf? ls source p isDirectory = none := by
    intro source
    rw [verdictOf?, List.findSome?_eq_none_iff]
    intro l hl
    have hrules : (sources.map fun _ => ([] : List Ignore.Rule)).getD source [] = [] := by
      rw [List.getD_eq_getElem?_getD, List.getElem?_map]
      cases sources[source]? <;> rfl
    rw [h l hl, hrules]
    rfl
  rw [isIgnored, List.findSome?_eq_none_iff.mpr fun source _ => hverdict source]
  rfl

theorem Bare.excludedFrom (h : Bare d) (hplain : Plain (here ++ more)) :
    excludedFrom d here more = false := by
  induction more generalizing here with
  | nil => rfl
  | cons name more ih =>
    have happend : here ++ name :: more = here ++ [name] ++ more := by simp
    rw [Walk.excludedFrom, isIgnored_eq_false fun l => h.levels (plain_append.mp hplain).1,
      ih (happend ▸ hplain)]
    rfl

theorem Bare.isExcluded (h : Bare d) {root p : Path} (hp : Below root p) :
    isExcluded d root p = false := by
  obtain ⟨more, hmore, rfl⟩ := hp
  rw [isExcluded_pathOf hmore, h.excludedFrom hmore]

end

end Walk

end BehaviorIndex
