import BehaviorIndex.Proofs.Files.Selection
import BehaviorIndex.Proofs.Workspace.Scan
import Mathlib.Data.String.Basic

/-!
# The statistics account for the index

A scan counts while its tasks come to their ends, and puts definitions in the store at other times.
At the end the two agree: what is counted as found is what the store holds, and what is counted as
failed are the files that cannot be read.

The counters are known from the invariant of the scan. The errors are the first of the *failures* of
the files whose tasks have ended, in the order of their ends (`Reported`).

**Theorem (`accounts_of_complete`).** So it is if not more files are listed than there are numbers.

**Refutation (`refused_crowded`).** With one more, a file that can be read is counted as failed.
-/

namespace BehaviorIndex

/-! ## The locations in a store -/

/-- The locations that a store has of a kind, counted over its names. -/
def Store.total (s : Store) (kind : Kind) : Nat :=
  ((s.names kind).map fun name => (s.lookup kind name).length).sum

theorem Log.places_eq_placesIn (log : Log) (name : String) :
    log.places name = placesIn (log.flatMap Prod.snd) name := by
  induction log with
  | nil => rfl
  | cons entry log ih =>
    rw [List.flatMap_cons, placesIn_append, ← ih]
    rfl

theorem Log.names_eq_map (log : Log) : log.names = (log.flatMap Prod.snd).map Prod.fst :=
  List.map_flatMap.symm

/-- Every definition of the log is a location of one name. -/
theorem Store.Answers.total {s : Store} {kind : Kind} {log : Log} (h : s.Answers kind log) :
    s.total kind = (log.flatMap Prod.snd).length := by
  have hnodup : (s.names kind).Nodup := h.names_ascending.imp fun hlt => ne_of_lt hlt
  simp only [Store.total, h.lookup, Log.places_eq_placesIn]
  refine sum_length_placesIn hnodup fun name hname => ?_
  rwa [h.mem_names, Log.names_eq_map]

/-- No site of a history is lost when its paths have numbers. -/
theorem History.length_numbered {h : History} {r : Registry}
    (hknown : ∀ entry ∈ h, (r.id? entry.1).isSome) :
    ((h.numbered r).flatMap Prod.snd).length = (h.map fun entry => entry.2.length).sum := by
  induction h with
  | nil => rfl
  | cons entry h ih =>
    obtain ⟨hentry, hknown⟩ := List.forall_mem_cons.mp hknown
    obtain ⟨id, hid⟩ := Option.isSome_iff_exists.mp hentry
    rw [List.map_cons, List.sum_cons, ← ih hknown]
    by_cases hnil : entry.2 = []
    · simp [numbered, hnil]
    · simp [numbered, hnil, hid, Sites.placed]

/-! ## Failures -/

namespace Scan

/-- A path that cannot be read, with the text of its error. -/
def failure? (d : Disk) (p : Path) : Option (Path × String) :=
  match d.read p with
  | .ok _ => none
  | .error fault => some (p, (IndexError.fileRead p fault.message).message)

/-- The files that cannot be read, each with the text of its error. -/
def failures (d : Disk) (files : List (Path × Kind)) : List (Path × String) :=
  files.filterMap fun file => failure? d file.1

section

variable {d : Disk} {files : List (Path × Kind)}

theorem failures_cons (file : Path × Kind) (files : List (Path × Kind)) :
    failures d (file :: files) = (failure? d file.1).toList ++ failures d files := by
  rw [failures, List.filterMap_cons]
  cases failure? d file.1 <;> rfl

theorem failures_concat (files : List (Path × Kind)) (file : Path × Kind) :
    failures d (files ++ [file]) = failures d files ++ (failure? d file.1).toList := by
  rw [failures, List.filterMap_append, ← failures, ← failures, failures_cons]
  exact congrArg _ (List.append_nil _)

theorem of_mem_failures {failure : Path × String} (h : failure ∈ failures d files) :
    failure.1 ∈ files.map Prod.fst ∧ d.content? failure.1 = none := by
  obtain ⟨file, hfile, hfailure⟩ := List.mem_filterMap.mp h
  unfold failure? at hfailure
  split at hfailure
  · cases hfailure
  · next fault hread =>
    cases hfailure
    exact ⟨List.mem_map_of_mem hfile, by rw [Disk.content?, hread]; rfl⟩

theorem fst_failures_sublist (files : List (Path × Kind)) :
    ((failures d files).map Prod.fst).Sublist (files.map Prod.fst) := by
  induction files with
  | nil => exact .slnil
  | cons file files ih =>
    rw [failures_cons, failure?]
    cases d.read file.1 with
    | ok text => exact ih.cons _
    | error fault => exact ih.cons_cons _

/-! ## Counters -/

/-- Every file is counted as indexed or as failed. -/
theorem indexed_add_failed_shares (settings : Settings) (d : Disk) (files : List (Path × Kind)) :
    (files.map (share settings d)).sum.1 + (files.map (share settings d)).sum.2.1 =
      files.length := by
  induction files with
  | nil => rfl
  | cons file files ih =>
    rw [List.map_cons, List.sum_cons, List.length_cons, ← ih, share]
    cases d.read file.1 with
    | ok text => cases file.2 <;> simp <;> omega
    | error fault => simp; omega

theorem failed_shares (settings : Settings) (d : Disk) (files : List (Path × Kind)) :
    (files.map (share settings d)).sum.2.1 = (failures d files).length := by
  induction files with
  | nil => rfl
  | cons file files ih =>
    rw [List.map_cons, List.sum_cons, failures_cons, List.length_append, ← ih, share, failure?]
    cases d.read file.1 with
    | ok text => cases file.2 <;> rfl
    | error fault => rfl

end

end Scan

namespace Statistics

/-- How many definitions of a kind are counted. -/
def found (s : Statistics) : Kind → Nat
  | .tree => s.treesFound
  | .node => s.nodesFound

/-- The counter of a kind among the counters. -/
def foundIn (counters : Nat × Nat × Nat × Nat) : Kind → Nat
  | .tree => counters.2.2.1
  | .node => counters.2.2.2

theorem found_eq_foundIn (s : Statistics) (kind : Kind) :
    s.found kind = foundIn s.counters kind := by
  cases kind <;> rfl

end Statistics

namespace Scan

section

variable {settings : Settings} {d : Disk} {files joined : List (Path × Kind)} {stats : Statistics}

/-- What the files add to the counter of a kind is what they add to the history. -/
theorem foundIn_shares (kind : Kind) (order : List (Path × Kind)) :
    Statistics.foundIn (order.map (share settings d)).sum kind =
      ((entries settings d kind order).map fun entry => entry.2.length).sum := by
  induction order with
  | nil => cases kind <;> rfl
  | cons file order ih =>
    obtain ⟨p, k⟩ := file
    rw [List.map_cons, List.sum_cons, entries, List.filterMap_cons, share]
    cases hread : d.read p with
    | error fault =>
      rw [contribution?_of_error hread]
      cases kind <;> simpa [entries, Statistics.foundIn] using ih
    | ok text =>
      rw [contribution?_of_ok hread]
      cases kind <;> cases k <;> simpa [entries, Statistics.foundIn] using ih

/-! ## Errors -/

/-- The errors are the first of the failures of some files. -/
def Reported (d : Disk) (joined : List (Path × Kind)) (stats : Statistics) : Prop :=
  stats.errors = (failures d joined).take maxReportedErrors

/-- To keep an element unless the list is full is to cut off what is too much. -/
theorem take_concat {α : Type} (xs : List α) (x : α) (n : Nat) :
    (xs ++ [x]).take n =
      if (xs.take n).length < n then xs.take n ++ [x] else xs.take n := by
  rw [List.take_append, List.length_take]
  split_ifs with h
  · rw [List.take_of_length_le (l := [x]) (by simp; omega)]
  · rw [show n - xs.length = 0 by omega, List.take_zero, List.append_nil]

theorem Reported.collect (h : Reported d joined stats) (file : Path × Kind) :
    Reported d (joined ++ [file])
      (Task.collect stats ⟨file.1, file.2, .finished (outcome settings d file)⟩) := by
  rw [Reported, failures_concat, failure?, outcome, Task.collect]
  cases d.read file.1 with
  | ok text =>
    rw [Option.toList_none, List.append_nil]
    cases file.2 <;> exact h
  | error fault =>
    rw [Option.toList_some, take_concat, ← h]
    rfl

/-- **One step.** The errors stay those of the tasks that have ended. -/
theorem Reported.step {paths : List Path} {order : List (Path × Kind)} {s s' : Scan}
    (h : Reported d joined s.stats) (hjoined : joined.Perm (filesAt Stage.isJoined s.tasks))
    (hinv : Inv settings d files paths order s) (hstep : Step d s s') :
    ∃ joined', joined'.Perm (filesAt Stage.isJoined s'.tasks) ∧ Reported d joined' s'.stats := by
  cases hstep with
  | @mk w stats front t back hstage =>
    obtain ⟨p, kind, stage⟩ := t
    -- As long as the task has not ended, it adds nothing to the statistics.
    have hgoing : ∀ stage' : Stage, stage'.isJoined = false →
        joined.Perm (filesAt Stage.isJoined (front ++ ⟨p, kind, stage'⟩ :: back)) := by
      intro stage' hstage'
      rw [filesAt_move_of_eq (t := ⟨p, kind, stage⟩) (hstage'.trans hstage.symm)]
      exact hjoined
    cases stage with
    | waiting =>
      refine ⟨joined, hgoing _ ?_, h⟩
      rw [Task.advance]
      rcases w.registry.register p with ⟨registry, _ | file⟩ <;> rfl
    | registered file => exact ⟨joined, hgoing _ rfl, h⟩
    | read file result =>
      refine ⟨joined, hgoing _ ?_, h⟩
      cases result <;> rfl
    | finished result =>
      have hresult : result = outcome settings d (p, kind) :=
        hinv.consistent _ (List.mem_append_right _ List.mem_cons_self)
      refine ⟨joined ++ [(p, kind)], ?_, ?_⟩
      · exact (hjoined.append_right _).trans
          (filesAt_move_of_ne (t := ⟨p, kind, .finished result⟩) rfl rfl).symm
      · rw [hresult]
        exact h.collect (p, kind)
    | joined => cases hstage

/-- **A run.** The errors are the first of the failures of the tasks that have ended. -/
theorem Run.reported {root : Path} {s : Scan} (h : Run d (start (.new d settings root) files) s)
    (hdistinct : (files.map fun file => file.1.normal).Nodup)
    (hfew : files.length ≤ Registry.idCount) :
    ∃ joined, joined.Perm (filesAt Stage.isJoined s.tasks) ∧ Reported d joined s.stats := by
  induction h with
  | refl =>
    refine ⟨[], ?_, rfl⟩
    rw [filesAt_start _ rfl]
  | tail hrun hstep ih =>
    obtain ⟨joined, hjoined, hreported⟩ := ih
    obtain ⟨paths, order, hinv⟩ := Run.inv hrun hdistinct hfew
    exact hreported.step hjoined hinv hstep

end

/-! ## Complete runs -/

/-- What the statistics say of the files that were listed and of the index. -/
structure Accounts (d : Disk) (files : List (Path × Kind)) (w : Workspace) (stats : Statistics) :
    Prop where
  listed : stats.filesIndexed + stats.filesFailed = files.length
  found : ∀ kind, stats.found kind = w.store.total kind
  failed : stats.filesFailed = (failures d files).length
  length_errors : stats.errors.length = min stats.filesFailed maxReportedErrors
  mem_failures : ∀ error ∈ stats.errors, error ∈ failures d files
  distinct : (stats.errors.map Prod.fst).Nodup
  /-- A file that cannot be read has a number, but no location has this number. -/
  unlocated : ∀ failure ∈ failures d files, ∃ file, w.registry.id? failure.1 = some file ∧
    ∀ kind name, ∀ place ∈ w.lookup kind name, place.file ≠ file

section

variable {settings : Settings} {d : Disk} {files : List (Path × Kind)} {paths : List Path}
  {order : List (Path × Kind)} {s : Scan}

namespace Inv

variable (h : Inv settings d files paths order s) (hcomplete : s.Complete)

include h hcomplete

theorem counters_files : s.stats.counters = (files.map (share settings d)).sum := by
  rw [h.counters_eq, hcomplete.filesAt_eq rfl, h.files_eq]

theorem found (kind : Kind) : s.stats.found kind = s.workspace.store.total kind := by
  have hshares : s.stats.counters = (order.map (share settings d)).sum := by
    rw [h.counters_files hcomplete, ((h.order_perm_files hcomplete).map _).sum_eq]
  rw [Statistics.found_eq_foundIn, hshares, foundIn_shares,
    (Store.answers_of_tracks (h.mirrors.store kind)).total,
    History.length_numbered (h.mirrors.known kind)]

/-- A location lies in a file that can be read. -/
theorem content_of_mem_lookup (hdistinct : (files.map fun file => file.1.normal).Nodup)
    {kind : Kind} {name : String} {place : Location}
    (hplace : place ∈ s.workspace.lookup kind name) :
    ∃ p, s.workspace.registry.id? p = some place.file ∧ p ∈ files.map Prod.fst ∧
      d.content? p ≠ none := by
  rw [← h.mirrors.location_definitions] at hplace
  obtain ⟨definition, hdefinition, rfl⟩ := List.mem_map.mp hplace
  have hsite : definition.site ∈ sitesOf settings d kind name order := by
    rw [← h.sites_definitions hcomplete hdistinct]
    exact List.mem_map_of_mem hdefinition
  refine ⟨definition.path, (h.mirrors.id?_of_mem_definitions hdefinition).2.2, ?_, ?_⟩
  · have hfile := (h.order_perm_files hcomplete).mem_iff.mp (mem_of_mem_sitesOf hsite)
    exact List.mem_map.mpr ⟨_, hfile, rfl⟩
  · intro hnone
    obtain ⟨file, -, hsite⟩ := List.mem_flatMap.mp hsite
    split_ifs at hsite
    · have hpath : definition.path = file.1 := path_of_mem_sitesIn hsite
      rw [sitesIn, ← hpath, hnone] at hsite
      cases hsite
    · cases hsite

theorem unlocated (hdistinct : (files.map fun file => file.1.normal).Nodup)
    {failure : Path × String} (hfailure : failure ∈ failures d files) :
    ∃ file, s.workspace.registry.id? failure.1 = some file ∧
      ∀ kind name, ∀ place ∈ s.workspace.lookup kind name, place.file ≠ file := by
  obtain ⟨hmem, hnone⟩ := of_mem_failures hfailure
  have hpaths : failure.1 ∈ paths := by
    have hperm := h.paths_perm
    rw [hcomplete.filesAt_eq rfl, h.files_eq] at hperm
    exact hperm.mem_iff.mpr hmem
  obtain ⟨file, hfile⟩ := Option.isSome_iff_exists.mp
    ((h.mirrors.registry.mem_iff failure.1).mpr (List.mem_map_of_mem hpaths))
  refine ⟨file, hfile, fun kind name place hplace hsame => ?_⟩
  obtain ⟨p, hp, hlisted, hsome⟩ := h.content_of_mem_lookup hcomplete hdistinct hplace
  -- Two files with one number are one file.
  have hnormal : p.normal = failure.1.normal :=
    h.mirrors.registry.paired.normal_eq_of_id? (hsame ▸ hp) hfile
  have hinj : ((files.map Prod.fst).map Path.normal).Nodup := by
    rw [List.map_map]
    exact hdistinct
  rw [List.inj_on_of_nodup_map hinj hlisted hmem hnormal] at hsome
  exact hsome hnone

end Inv

theorem Run.accounts {root : Path} (hrun : Run d (start (.new d settings root) files) s)
    (hcomplete : s.Complete) (hdistinct : (files.map fun file => file.1.normal).Nodup)
    (hfew : files.length ≤ Registry.idCount) : Accounts d files s.workspace s.stats := by
  obtain ⟨paths, order, h⟩ := hrun.inv hdistinct hfew
  obtain ⟨joined, hjoined, hreported⟩ := hrun.reported hdistinct hfew
  rw [hcomplete.filesAt_eq rfl, h.files_eq] at hjoined
  have hcounters := h.counters_files hcomplete
  have hfailed : s.stats.filesFailed = (failures d files).length := by
    rw [← failed_shares settings, ← hcounters]
    rfl
  have hfailures : (failures d joined).Perm (failures d files) := hjoined.filterMap _
  have hsublist : s.stats.errors.Sublist (failures d joined) := by
    rw [hreported]
    exact List.take_sublist _ _
  refine ⟨?_, h.found hcomplete, hfailed, ?_, ?_, ?_,
    fun failure => h.unlocated hcomplete hdistinct⟩
  · rw [← indexed_add_failed_shares settings d, ← hcounters]
    rfl
  · rw [hreported, List.length_take, hfailures.length_eq, ← hfailed, Nat.min_comm]
  · exact fun error herror => hfailures.mem_iff.mp (hsublist.subset herror)
  · have hfiles : (files.map Prod.fst).Nodup := by
      refine List.Nodup.of_map Path.normal ?_
      rw [List.map_map]
      exact hdistinct
    have hjoined' : (joined.map Prod.fst).Nodup := (hjoined.map _).nodup_iff.mpr hfiles
    exact hjoined'.sublist ((hsublist.map _).trans (fst_failures_sublist joined))

end

end Scan

namespace Workspace

/-- The files that are indexed with a workspace. -/
def listed (w : Workspace) (d : Disk) : List (Path × Kind) :=
  Walk.walk d w.settings.indexing w.root

/-- **The statistics account for the index**, in whatever order the tasks of the files take their
steps, and so if the files are taken one after the other. -/
theorem accounts_of_complete (d : Disk) (settings : Settings) (root : Path)
    (hfew : ((new d settings root).listed d).length ≤ Registry.idCount) :
    (∀ s, Scan.Run d (.start (new d settings root) ((new d settings root).listed d)) s →
      s.Complete → Scan.Accounts d ((new d settings root).listed d) s.workspace s.stats) ∧
    Scan.Accounts d ((new d settings root).listed d) ((new d settings root).indexAll d).1
      ((new d settings root).indexAll d).2 := by
  have hdistinct := Walk.nodup_walk d settings.indexing (new d settings root).root
  refine ⟨fun s hrun hcomplete => hrun.accounts hcomplete hdistinct hfew, ?_⟩
  exact (Scan.run_indexFiles d (new d settings root) _).accounts (Scan.complete_ended _ _ _)
    hdistinct hfew

/-- A disk with a file of two trees and two files that are not text. -/
def patchy : Disk :=
  ⟨.ofList [("/a.xml", Disk.Entry.file "<BehaviorTree ID='T'/><BehaviorTree ID='U'/>".toUTF8),
    ("/b.xml", Disk.Entry.file ⟨#[0xff]⟩), ("/c.hpp", Disk.Entry.file ⟨#[0xc3]⟩)], "/"⟩

def patchySpace : Workspace := new patchy (.defaults 1) "/"

def patchyScan : List Nat → Scan := (Scan.start patchySpace (patchySpace.listed patchy)).play patchy

/-- In this run all paths are registered first, and the last file is done before the others. -/
theorem accounts_of_patchy :
    let s := patchyScan [2, 1, 0, 2, 2, 2, 0, 1, 0, 1, 0, 1]
    s.Complete ∧ s.stats.counters = (1, 2, 2, 0) ∧
      s.stats.errors =
        [("/c.hpp", "Failed to read file '/c.hpp': stream did not contain valid UTF-8"),
          ("/b.xml", "Failed to read file '/b.xml': stream did not contain valid UTF-8")] ∧
      (patchySpace.indexAll patchy).2.errors =
        [("/b.xml", "Failed to read file '/b.xml': stream did not contain valid UTF-8"),
          ("/c.hpp", "Failed to read file '/c.hpp': stream did not contain valid UTF-8")] ∧
      Scan.Accounts patchy [("/a.xml", .tree), ("/b.xml", .tree), ("/c.hpp", .node)] s.workspace
        s.stats := by
  intro s
  have hlisted : patchySpace.listed patchy =
      [("/a.xml", .tree), ("/b.xml", .tree), ("/c.hpp", .node)] := by decide +kernel
  have hcomplete : s.Complete := by decide +kernel
  refine ⟨hcomplete, by decide +kernel, by decide +kernel, by decide +kernel, ?_⟩
  rw [← hlisted]
  exact (accounts_of_complete patchy (.defaults 1) "/" (by decide +kernel)).1 s
    (Scan.run_play patchy _ _) hcomplete

/-! ## More files than numbers -/

open Disk (pathOf)
open BehaviorIndex.Path (Plain plain_nil)

/-- The name of a file that may hold trees. -/
def xmlName (n : Nat) : String := Registry.lettered n ++ ".xml"

theorem toList_xmlName (n : Nat) :
    (xmlName n).toList = List.replicate (n + 1) 'a' ++ ".xml".toList := by
  rw [xmlName, String.toList_append, Registry.lettered, String.toList_ofList]

theorem xmlName_inj {m n : Nat} (h : xmlName m = xmlName n) : m = n := by
  have hlength := congrArg (fun name => name.toList.length) h
  simpa [toList_xmlName] using hlength

theorem plain_xmlName (n : Nat) : Plain [xmlName n] := by
  intro name hname
  rw [List.mem_singleton.mp hname]
  refine ⟨?_, fun hup => ?_⟩
  · simp [Path.IsName, toList_xmlName, List.replicate_succ]
  · have hlist := congrArg String.toList hup
    simp [toList_xmlName, List.replicate_succ] at hlist

/-- A disk with some empty files. -/
def crowded : Nat → Disk
  | 0 => {}
  | count + 1 =>
    { crowded count with
      entries := (crowded count).entries.insert (pathOf [xmlName count]) (.file "".toUTF8) }

/-- The files are all that is on the disk. -/
theorem exists_of_at?_crowded {count : Nat} {names : List String} (hplain : Plain names)
    (hne : names ≠ []) {entry : Disk.Entry} (h : (crowded count).at? (pathOf names) = some entry) :
    ∃ n < count, names = [xmlName n] ∧ entry = .file "".toUTF8 := by
  induction count generalizing names entry with
  | zero =>
    rw [Disk.at?_pathOf_of_ne_nil _ hplain hne] at h
    simp [crowded] at h
  | succ count ih =>
    have hnew : (crowded count).at? (pathOf [xmlName count]) ≠ some .directory := by
      intro hdirectory
      obtain ⟨-, -, -, hfile⟩ := ih (plain_xmlName count) (by simp) hdirectory
      cases hfile
    by_cases hlast : names = [xmlName count]
    · subst hlast
      have hfile := (crowded count).at?_insert_file hnew "".toUTF8
      exact ⟨count, Nat.lt_add_one count, rfl, Option.some.inj (h.symm.trans hfile)⟩
    · have hpath := (Disk.pathOf_inj hplain (plain_xmlName count)).not.mpr hlast
      rw [crowded, Disk.at?_insert_of_ne hpath] at h
      obtain ⟨n, hn, hnames, hentry⟩ := ih hplain hne h
      exact ⟨n, Nat.lt_add_right 1 hn, hnames, hentry⟩

theorem at?_crowded {count n : Nat} (h : n < count) :
    (crowded count).at? (pathOf [xmlName n]) = some (.file "".toUTF8) := by
  induction count with
  | zero => cases h
  | succ count ih =>
    by_cases hlast : n = count
    · subst hlast
      refine (crowded n).at?_insert_file (fun hdirectory => ?_) _
      obtain ⟨-, -, -, hfile⟩ := exists_of_at?_crowded (plain_xmlName n) (by simp) hdirectory
      cases hfile
    · have hpath := (Disk.pathOf_inj (plain_xmlName n) (plain_xmlName count)).not.mpr
        fun hnames => hlast (xmlName_inj (List.singleton_inj.mp hnames))
      rw [crowded, Disk.at?_insert_of_ne hpath]
      exact ih (by omega)

theorem bare_crowded (count : Nat) : Walk.Bare (crowded count) := by
  intro names hnames source hsource content hfile
  obtain ⟨hplain, hne, -⟩ := Walk.plain_source source hsource
  obtain ⟨name, hname⟩ := List.exists_mem_of_ne_nil _ hne
  obtain ⟨n, -, heq, -⟩ := exists_of_at?_crowded
    (Path.plain_append.mpr ⟨hnames, hplain⟩) (List.append_ne_nil_of_right_ne_nil _ hne) hfile
  have hxml : name = xmlName n :=
    List.mem_singleton.mp (heq ▸ List.mem_append_right names hname)
  -- No ignore file has a name that begins with the letter.
  have hletter : ∀ source ∈ Walk.sources, ∀ name ∈ source.names, name.toList.head? ≠ some 'a' := by
    decide +kernel
  refine hletter source hsource name hname ?_
  rw [hxml, toList_xmlName, List.replicate_succ]
  rfl

theorem fileName?_xmlName (n : Nat) : (pathOf [xmlName n]).fileName? = some (xmlName n) := by
  have hplain : Plain ([] ++ [xmlName n]) := plain_xmlName n
  have hname := Disk.fileName?_pathOf_concat hplain
  rwa [List.nil_append] at hname

theorem extension?_xmlName (n : Nat) : (pathOf [xmlName n]).extension? = some "xml" := by
  rw [Path.extension?, fileName?_xmlName]
  simp only [toList_xmlName, List.reverse_append, List.reverse_replicate]
  rw [List.replicate_succ]
  rfl

theorem candidate_crowded {count n : Nat} (h : n < count) :
    Walk.Candidate (crowded count) (.defaults 1) (pathOf []) .tree (pathOf [xmlName n]) := by
  have hplain := plain_xmlName n
  refine ⟨⟨[xmlName n], ?_, ?_⟩, ?_, ?_, ?_⟩
  · rwa [Disk.names_pathOf plain_nil]
  · rw [Disk.names_pathOf plain_nil]
    rfl
  · exact (Disk.isFile_pathOf_iff hplain).mpr ⟨⟨rfl, trivial⟩, _, at?_crowded h⟩
  · rw [Path.isHidden, fileName?_xmlName, Option.any_some, toList_xmlName, List.replicate_succ]
    rfl
  · rw [Settings.Indexing.kindOf?, extension?_xmlName]
    decide +kernel

/-- The workspace of all files. -/
def crowdedSpace (count : Nat) : Workspace := new (crowded count) (.defaults 1) "/"

theorem root_crowdedSpace (count : Nat) : (crowdedSpace count).root = pathOf [] := by
  have hroot : (crowded count).resolve (pathOf []) = .ok (pathOf []) :=
    (Disk.resolve_pathOf_iff plain_nil).mpr ⟨rfl, trivial, rfl⟩
  show (crowded count).canonical (pathOf []) = _
  rw [Disk.canonical, hroot]
  rfl

/-- All files are listed. -/
theorem le_length_listed (count : Nat) :
    count ≤ ((crowdedSpace count).listed (crowded count)).length := by
  have hnodup : ((List.range count).map fun n => (pathOf [xmlName n], Kind.tree)).Nodup := by
    refine List.Nodup.map (fun m n h => ?_) List.nodup_range
    have hpath := (Disk.pathOf_inj (plain_xmlName m) (plain_xmlName n)).mp (Prod.mk.inj h).1
    exact xmlName_inj (List.singleton_inj.mp hpath)
  have hlength : ((List.range count).map fun n => (pathOf [xmlName n], Kind.tree)).length =
      count := by
    rw [List.length_map, List.length_range]
  conv_lhs => rw [← hlength]
  refine hnodup.length_le_of_subset fun file hfile => ?_
  obtain ⟨n, hn, rfl⟩ := List.mem_map.mp hfile
  have hcandidate := candidate_crowded (List.mem_range.mp hn)
  rw [listed, root_crowdedSpace]
  exact (Walk.mem_walk_iff plain_nil).mpr
    ⟨hcandidate, (bare_crowded count).isExcluded hcandidate.below⟩

/-- All files that are listed can be read. -/
theorem failures_listed (count : Nat) :
    Scan.failures (crowded count) ((crowdedSpace count).listed (crowded count)) = [] := by
  refine List.filterMap_eq_nil_iff.mpr fun file hfile => ?_
  obtain ⟨p, kind⟩ := file
  rw [listed, root_crowdedSpace] at hfile
  obtain ⟨⟨⟨more, hplain, rfl⟩, hisFile, -, -⟩, -⟩ := (Walk.mem_walk_iff plain_nil).mp hfile
  rw [Disk.names_pathOf plain_nil, List.nil_append] at hplain hisFile ⊢
  obtain ⟨hopens, content, hcontent⟩ := (Disk.isFile_pathOf_iff hplain).mp hisFile
  have hne : more ≠ [] := by
    rintro rfl
    rw [Disk.at?_pathOf_nil] at hcontent
    cases hcontent
  obtain ⟨n, -, rfl, hempty⟩ := exists_of_at?_crowded hplain hne hcontent
  cases hempty
  have hread : (crowded count).read (pathOf [xmlName n]) = .ok "" :=
    Disk.read_of_readBytes ((Disk.readBytes_pathOf_iff hplain).mpr ⟨hopens, hcontent⟩)
  rw [Scan.failure?, hread]

/-- Of one file more than there are numbers, none fails to be read, but one is counted as failed. -/
theorem refused_of_many {count : Nat} (h : Registry.idCount < count) : ∃ s : Scan,
    Scan.Run (crowded count) (.start (crowdedSpace count)
      ((crowdedSpace count).listed (crowded count))) s ∧ s.Complete ∧
    Scan.failures (crowded count) ((crowdedSpace count).listed (crowded count)) = [] ∧
    0 < s.stats.filesFailed := by
  obtain ⟨s, hrun, hcomplete, hrefused⟩ := Scan.exists_run_refused (crowded count) (.defaults 1) "/"
    (Walk.nodup_walk _ _ _) (Nat.lt_of_lt_of_le h (le_length_listed count))
  exact ⟨s, hrun, hcomplete, failures_listed count, hrefused⟩

/-- **Refutation.** So it is with as many files as there are values of 32 bits. -/
theorem refused_crowded : ∃ s : Scan,
    Scan.Run (crowded UInt32.size) (.start (crowdedSpace UInt32.size)
      ((crowdedSpace UInt32.size).listed (crowded UInt32.size))) s ∧ s.Complete ∧
    Scan.failures (crowded UInt32.size)
      ((crowdedSpace UInt32.size).listed (crowded UInt32.size)) = [] ∧
    0 < s.stats.filesFailed := refused_of_many (by decide)

end Workspace

end BehaviorIndex
