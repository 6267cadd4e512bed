import BehaviorIndex.Files.Disk
import BehaviorIndex.Proofs.Files.Path
import Mathlib.Data.List.Nodup
import Std.Data.TreeMap.Lemmas

/-!
# Canonical paths

A disk keeps its entries under canonical paths, `Disk.pathOf names` for *plain* names: names that
can stand between two slashes, other than `..`. On such paths the operations on paths are operations
on the list of names, and a path is followed by looking at its beginnings:
`Disk.Opens d here names` says that the directories on the way from `here` along `names` are there.

**Theorems.** A canonical path leads to itself if it opens and has an entry (`resolve_pathOf_iff`),
and it can be read exactly if that entry is a file (`readBytes_pathOf_iff`). Whatever a path leads
to is canonical (`exists_pathOf_of_resolve`).
-/

namespace BehaviorIndex

open Std

namespace Path

/-- Names that stand for themselves on the way along a path. -/
def Plain (names : List String) : Prop := ∀ s ∈ names, IsName s ∧ s ≠ ".."

theorem Plain.isName {names : List String} (h : Plain names) : ∀ s ∈ names, IsName s :=
  fun s hs => (h s hs).1

theorem plain_nil : Plain [] := by simp [Plain]

theorem plain_append {names more : List String} :
    Plain (names ++ more) ↔ Plain names ∧ Plain more := List.forall_mem_append

theorem plain_cons {name : String} {names : List String} :
    Plain (name :: names) ↔ (IsName name ∧ name ≠ "..") ∧ Plain names := List.forall_mem_cons

theorem plain_singleton_of_fileName? {p : Path} {name : String} (h : p.fileName? = some name) :
    Plain [name] := by
  rw [fileName?] at h
  split at h
  · next c hc =>
    split at h
    · cases h
    · next hname =>
      cases h
      simp only [Bool.or_eq_true, beq_iff_eq, not_or] at hname
      have hmem := List.mem_of_getLast? hc
      have hnames : name ∈ p.names := by
        unfold components at hmem
        split at hmem
        · exact (List.mem_cons.mp hmem).resolve_left hname.1.1
        · split at hmem
          · exact (List.mem_cons.mp hmem).resolve_left hname.1.2
          · exact hmem
      intro s hs
      rw [List.mem_singleton.mp hs]
      exact ⟨isName_of_mem_names hnames, hname.2⟩
  · cases h

end Path

namespace Disk

open BehaviorIndex.Path (Plain plain_nil plain_append plain_cons)

/-! ## Canonical paths as lists of names -/

section

variable {names more : List String} {name : String}

theorem toList_pathOf (names : List String) :
    (pathOf names).toList = '/' :: ("/".intercalate names).toList := by
  rw [pathOf, String.toList_append]
  rfl

theorem isAbsolute_pathOf (names : List String) : (pathOf names).isAbsolute = true := by
  rw [Path.isAbsolute, toList_pathOf]
  rfl

theorem components_pathOf (h : Plain names) : (pathOf names).components = "/" :: names :=
  Path.components_slash h.isName

theorem names_pathOf (h : Plain names) : (pathOf names).names = names := by
  have hcomponents := components_pathOf h
  rw [Path.components, if_pos (isAbsolute_pathOf names)] at hcomponents
  exact (List.cons.inj hcomponents).2

theorem pathOf_inj (h : Plain names) (h' : Plain more) :
    pathOf names = pathOf more ↔ names = more := by
  constructor
  · intro heq
    rw [← names_pathOf h, heq, names_pathOf h']
  · rintro rfl
    rfl

theorem normal_pathOf (h : Plain names) : (pathOf names).normal = pathOf names := by
  rw [Path.normal, components_pathOf h]
  rfl

/-- Two canonical paths that are the same path are written alike. -/
theorem eq_of_normal_eq (h : Plain names) (h' : Plain more)
    (heq : (pathOf names).normal = (pathOf more).normal) : pathOf names = pathOf more := by
  rwa [normal_pathOf h, normal_pathOf h'] at heq

theorem parent?_pathOf_nil : (pathOf []).parent? = none := by
  rw [Path.parent?, components_pathOf plain_nil]
  rfl

theorem parent?_pathOf_concat (h : Plain (names ++ [name])) :
    (pathOf (names ++ [name])).parent? = some (pathOf names) := by
  rw [Path.parent?, components_pathOf h]
  split
  · next hnil => cases hnil
  · next hroot =>
    obtain ⟨-, hnil⟩ := List.cons.inj hroot
    simp at hnil
  · rw [← List.cons_append, List.dropLast_concat]
    rfl

theorem fileName?_pathOf_concat (h : Plain (names ++ [name])) :
    (pathOf (names ++ [name])).fileName? = some name := by
  obtain ⟨⟨hname, hup⟩, -⟩ := plain_cons.mp (plain_append.mp h).2
  have hslash : name ≠ "/" := by
    rintro rfl
    exact hname.2.2 (by decide)
  have hdot : name ≠ "." := by
    rintro rfl
    exact hname.2.1 (by decide)
  rw [Path.fileName?, components_pathOf h, ← List.cons_append, List.getLast?_concat]
  simp [hslash, hdot, hup]

theorem ancestors_pathOf_nil : (pathOf []).ancestors = [pathOf []] := by
  rw [Path.ancestors, components_pathOf plain_nil]
  rfl

/-- The nearest path above a path is the path itself. -/
theorem ancestors_pathOf_concat (h : Plain (names ++ [name])) :
    (pathOf (names ++ [name])).ancestors =
      pathOf (names ++ [name]) :: (pathOf names).ancestors := by
  have hnames := (plain_append.mp h).1
  rw [Path.ancestors, Path.ancestors, components_pathOf h, components_pathOf hnames,
    ← List.cons_append, List.length_append, List.length_singleton, List.range_succ,
    List.reverse_append, List.reverse_singleton, List.singleton_append, List.map_cons]
  congr 1
  · rw [List.take_of_length_le (by simp)]
    rfl
  · refine List.map_congr_left fun i hi => ?_
    have hlt : i < ("/" :: names).length := by simpa using hi
    rw [List.take_append_of_le_length hlt]

theorem pathOf_append (names : List String) (hmore : more ≠ []) :
    pathOf (names ++ more) =
      if names = [] then pathOf [] ++ "/".intercalate more
      else pathOf names ++ "/" ++ "/".intercalate more := by
  by_cases hnames : names = []
  · rw [if_pos hnames, hnames]
    simp [pathOf]
  · rw [if_neg hnames, pathOf, String.intercalate_append_of_ne_nil hnames hmore]
    simp [pathOf, String.append_assoc]

theorem getLast?_pathOf (h : Plain names) (hne : names ≠ []) :
    (pathOf names).toList.getLast? ≠ some '/' := by
  obtain ⟨front, last, rfl⟩ := List.eq_nil_or_concat names |>.resolve_left hne
  rw [List.concat_eq_append] at h ⊢
  obtain ⟨⟨hlast, -⟩, -⟩ := plain_cons.mp (plain_append.mp h).2
  have hsplit : ∃ before, (pathOf (front ++ [last])).toList = before ++ last.toList := by
    rw [pathOf_append front (List.cons_ne_nil last []), String.intercalate_singleton]
    split
    · exact ⟨_, String.toList_append⟩
    · exact ⟨_, String.toList_append⟩
  obtain ⟨before, hbefore⟩ := hsplit
  rw [hbefore, List.getLast?_append_of_ne_nil _ hlast.1]
  intro hslash
  exact hlast.2.2 (List.mem_of_getLast? hslash)

theorem join_pathOf_intercalate (h : Plain (names ++ more)) (hmore : more ≠ []) :
    (pathOf names).join ("/".intercalate more) = pathOf (names ++ more) := by
  obtain ⟨hnames, hplain⟩ := plain_append.mp h
  have hrelative : Path.isAbsolute ("/".intercalate more) = false := by
    have hsplit := Path.splitSlashes_intercalate (fun s hs => (hplain s hs).1.2.2) hmore
    obtain ⟨first, rest, rfl⟩ := List.exists_cons_of_ne_nil hmore
    refine Path.not_isAbsolute_of_head? ?_ (plain_cons.mp hplain).1.1.1
    rw [hsplit, List.map_cons, List.head?_cons]
  have hnonempty : (pathOf names).isEmpty = false := by
    rw [← Bool.not_eq_true, String.isEmpty_iff, ← String.toList_eq_nil_iff, toList_pathOf]
    simp
  rw [Path.join, if_neg (by simp [hrelative]), hnonempty, Bool.false_or, pathOf_append names hmore]
  by_cases hnil : names = []
  · rw [hnil]
    rfl
  · rw [if_neg (by simpa using getLast?_pathOf hnames hnil), if_neg hnil]

theorem join_pathOf (h : Plain (names ++ [name])) :
    (pathOf names).join name = pathOf (names ++ [name]) := by
  simpa using join_pathOf_intercalate h (by simp)

end

/-! ## Following a canonical path -/

theorem at?_pathOf_nil (d : Disk) : d.at? (pathOf []) = some .directory := rfl

theorem at?_pathOf_of_ne_nil (d : Disk) {names : List String} (h : Plain names) (hne : names ≠ []) :
    d.at? (pathOf names) = d.entries[pathOf names]? := by
  have hroot : pathOf names ≠ "/" := fun heq => hne ((pathOf_inj h plain_nil).mp heq)
  rw [at?, if_neg (by simpa using hroot)]

/-- The directories on the way from the directory with the names `here` along further names are
there. -/
def Opens (d : Disk) (here : List String) : List String → Prop
  | [] => True
  | name :: names => d.at? (pathOf here) = some .directory ∧ d.Opens (here ++ [name]) names

section

variable {d : Disk} {here names more there : List String}

theorem opens_append : d.Opens here (names ++ more) ↔
    d.Opens here names ∧ d.Opens (here ++ names) more := by
  induction names generalizing here with
  | nil => simp [Opens]
  | cons name names ih =>
    rw [List.cons_append, Opens, Opens, ih, and_assoc, List.append_assoc, List.singleton_append]

/-- Where following plain names ends. -/
theorem follow_eq_ok_iff (hnames : Plain names) (hhere : d.at? (pathOf here) = some .directory) :
    d.follow here.reverse names = .ok there ↔
      there = (here ++ names).reverse ∧ d.Opens here names ∧
        (d.at? (pathOf (here ++ names))).isSome := by
  induction names generalizing here with
  | nil => simp [follow, Opens, hhere, eq_comm]
  | cons name names ih =>
    obtain ⟨⟨-, hup⟩, hnames⟩ := plain_cons.mp hnames
    have hconcat : here ++ name :: names = here ++ [name] ++ names := by simp
    have hreverse : (name :: here.reverse).reverse = here ++ [name] := by simp
    have hstep : name :: here.reverse = (here ++ [name]).reverse := by simp
    rw [follow]
    · rw [hreverse, Opens, hconcat]
      cases hentry : d.at? (pathOf (here ++ [name])) with
      | none =>
        cases names with
        | nil => simp [hentry]
        | cons next names => simp [Opens, hentry]
      | some entry =>
        cases entry with
        | directory =>
          simp only [hstep, ih hnames hentry, hhere, true_and]
        | file content =>
          cases names with
          | nil => simp [Opens, hentry, hhere, eq_comm]
          | cons next names => simp [Opens, hentry]
    · exact hup

/-- A canonical path asks for a directory only if it is the root. -/
theorem asksForDirectory_pathOf (h : Plain names) (hne : names ≠ []) :
    asksForDirectory (pathOf names) = false := by
  obtain ⟨front, last, rfl⟩ := List.eq_nil_or_concat names |>.resolve_left hne
  rw [List.concat_eq_append] at h hne ⊢
  obtain ⟨⟨hlast, -⟩, -⟩ := plain_cons.mp (plain_append.mp h).2
  have hsplit : Path.splitSlashes (pathOf (front ++ [last])).toList =
      ([] :: front.map String.toList) ++ [last.toList] := by
    rw [toList_pathOf, Path.splitSlashes,
      Path.splitSlashes_intercalate (fun s hs => (h s hs).1.2.2) hne, List.map_append]
    rfl
  rw [asksForDirectory, hsplit, List.getLast?_concat]
  simp [hlast.1, hlast.2.1]

/-- A canonical path leads to itself, if it leads anywhere. -/
theorem resolve_pathOf_iff (h : Plain names) {p : Path} :
    d.resolve (pathOf names) = .ok p ↔
      p = pathOf names ∧ d.Opens [] names ∧ (d.at? (pathOf names)).isSome := by
  have hnonempty : (pathOf names).isEmpty = false := by
    rw [← Bool.not_eq_true, String.isEmpty_iff, ← String.toList_eq_nil_iff, toList_pathOf]
    simp
  have hjoin : d.current.join (pathOf names) = pathOf names := if_pos (isAbsolute_pathOf names)
  have hfollow := fun there => @follow_eq_ok_iff d [] names there h d.at?_pathOf_nil
  simp only [List.reverse_nil, List.nil_append] at hfollow
  rw [resolve, hnonempty, if_neg Bool.false_ne_true, hjoin, names_pathOf h]
  cases hwalk : d.follow [] names with
  | error fault =>
    have hnone : ¬ (d.Opens [] names ∧ (d.at? (pathOf names)).isSome) := by
      intro hopens
      have hok := (hfollow names.reverse).mpr ⟨rfl, hopens⟩
      rw [hwalk] at hok
      cases hok
    simp [hnone]
  | ok there =>
    obtain ⟨rfl, hopens, hentry⟩ := (hfollow there).mp hwalk
    simp only [List.reverse_reverse]
    cases hat : d.at? (pathOf names) with
    | none => simp [hat] at hentry
    | some entry =>
      cases entry with
      | directory => simp [hopens, eq_comm]
      | file content =>
        have hne : names ≠ [] := by
          rintro rfl
          rw [at?_pathOf_nil] at hat
          cases hat
        simp [hopens, asksForDirectory_pathOf h hne, eq_comm]

/-- A canonical path can be read if it leads to a file. -/
theorem readBytes_pathOf_iff (h : Plain names) {content : ByteArray} :
    d.readBytes (pathOf names) = .ok content ↔
      d.Opens [] names ∧ d.at? (pathOf names) = some (.file content) := by
  rw [readBytes]
  cases hresolve : d.resolve (pathOf names) with
  | error fault =>
    have hnone : ¬ (d.Opens [] names ∧ d.at? (pathOf names) = some (.file content)) := by
      rintro ⟨hopens, hentry⟩
      have hok := (resolve_pathOf_iff h).mpr ⟨rfl, hopens, by simp [hentry]⟩
      rw [hresolve] at hok
      cases hok
    simp [hnone]
  | ok p =>
    obtain ⟨rfl, hopens, -⟩ := (resolve_pathOf_iff h).mp hresolve
    cases hat : d.at? (pathOf names) with
    | none => simp [hat]
    | some entry => cases entry <;> simp [hat, hopens]

variable {p q : Path} {content : ByteArray}

theorem read_of_readBytes {text : String} (h : d.readBytes p = .ok text.toUTF8) :
    d.read p = .ok text := by
  simp only [read, h, fromUTF8?_toUTF8]

theorem read_of_resolve {text : String} (hresolve : d.resolve q = .ok p)
    (hfile : d.at? p = some (.file text.toUTF8)) : d.read q = .ok text :=
  read_of_readBytes (by simp only [readBytes, hresolve, hfile])

/-! ### Writing a file -/

theorem at?_insert_of_ne (hne : p ≠ q) (entry : Entry) :
    { d with entries := d.entries.insert q entry }.at? p = d.at? p := by
  simp only [at?, Std.TreeMap.getElem?_insert, Std.compare_eq_iff_eq, if_neg hne.symm]

theorem at?_insert_file (d : Disk) (hp : d.at? p ≠ some .directory) (content : ByteArray) :
    { d with entries := d.entries.insert p (.file content) }.at? p = some (.file content) := by
  have hroot : p ≠ "/" := by
    rintro rfl
    exact hp d.at?_pathOf_nil
  simp [at?, hroot]

/-- The directories stay where they are. -/
theorem at?_insert_file_iff (hq : d.at? q ≠ some .directory) :
    { d with entries := d.entries.insert q (.file content) }.at? p = some .directory ↔
      d.at? p = some .directory := by
  by_cases hpq : p = q
  · subst hpq
    have hroot : p ≠ "/" := by
      rintro rfl
      exact hq d.at?_pathOf_nil
    simp [at?, hroot] at hq ⊢
    exact hq
  · rw [at?_insert_of_ne hpq]

theorem opens_insert_file_iff (hq : d.at? q ≠ some .directory) :
    { d with entries := d.entries.insert q (.file content) }.Opens here names ↔
      d.Opens here names := by
  induction names generalizing here with
  | nil => rfl
  | cons name names ih => rw [Opens, Opens, at?_insert_file_iff hq, ih]

/-- A file that is written leaves the other files as they are. -/
theorem readBytes_insert_file_of_ne (hq : d.at? q ≠ some .directory) (h : Plain names)
    (hne : pathOf names ≠ q) :
    ({ d with entries := d.entries.insert q (.file content) }.readBytes (pathOf names)).toOption =
      (d.readBytes (pathOf names)).toOption := by
  have hok : ∀ (r : Except Fault ByteArray) bytes, r.toOption = some bytes ↔ r = .ok bytes := by
    intro r bytes
    cases r <;> simp [Except.toOption]
  refine Option.ext fun bytes => ?_
  rw [hok, hok, readBytes_pathOf_iff h, readBytes_pathOf_iff h, opens_insert_file_iff hq,
    at?_insert_of_ne hne]

/-! ### Where paths lead -/

theorem plain_of_follow (hnames : ∀ s ∈ names, Path.IsName s) (hhere : Plain here)
    (h : d.follow here names = .ok there) : Plain there := by
  fun_induction follow d here names with
  | case1 here =>
    cases h
    exact hhere
  | case2 here names ih =>
    refine ih (List.forall_mem_cons.mp hnames).2 ?_ h
    exact fun s hs => hhere s (List.mem_of_mem_tail hs)
  | case3 | case6 => cases h
  | case4 here name names hup hentry ih =>
    obtain ⟨hname, hnames⟩ := List.forall_mem_cons.mp hnames
    exact ih hnames (plain_cons.mpr ⟨⟨hname, hup⟩, hhere⟩) h
  | case5 here name names hup content hentry hlast =>
    cases h
    exact plain_cons.mpr ⟨⟨(List.forall_mem_cons.mp hnames).1, hup⟩, hhere⟩

/-- Whatever a path leads to is canonical. -/
theorem exists_pathOf_of_resolve (h : d.resolve p = .ok q) :
    ∃ names, Plain names ∧ q = pathOf names := by
  rw [resolve] at h
  split at h
  · cases h
  · split at h
    · cases h
    · next there hfollow =>
      have hplain := plain_of_follow (fun s => Path.isName_of_mem_names) plain_nil hfollow
      refine ⟨there.reverse, fun s hs => hplain s (List.mem_reverse.mp hs), ?_⟩
      simp only at h
      split at h
      · split at h <;> cases h
        rfl
      · cases h
        rfl

end

end Disk

end BehaviorIndex
