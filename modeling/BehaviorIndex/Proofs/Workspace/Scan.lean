import BehaviorIndex.Proofs.Index.Exhaustion
import BehaviorIndex.Proofs.Source.Order
import BehaviorIndex.Proofs.Workspace.Mirror
import Mathlib.Algebra.BigOperators.Group.List.Basic
import Mathlib.Data.List.Sort
import Mathlib.Logic.Relation

/-!
# The scan does not depend on scheduling

To scan some files, a task for each of them registers its path, reads the file, and puts what the
file defines in the store; then its result is added to the statistics. The tasks run side by side:
each step of a task takes one lock, and the steps of different tasks come in any order. `Step` is
one step of some task. One task after the other is one of these orders (`run_indexFiles`), and the
steps of tasks by their numbers give any order (`run_play`).

**Theorem (`agree_of_complete`).** Any two complete runs on the same distinct files, not more of
them than there are numbers, end with the same names, the same completions, the same counters, and
the same definitions up to the order of files. In each of them the definitions of a file stand
together, in the order of its text.

A run keeps the *order* in which files are put in the store. It determines the histories that the
workspace holds, and it is an order of the files that are done; when all are done, it is an order of
all files (`Inv.order_perm_files`).

**Refutation (`not_agree_crowd`).** With one file more than there are numbers, the file that comes
last is refused, and which one this is depends on the schedule.
-/

namespace BehaviorIndex

/-! ## Tasks -/

namespace Scan

/-- How far the task of a file has come. -/
inductive Stage where
  | waiting
  | registered (file : FileId)
  | read (file : FileId) (result : Except Disk.Fault String)
  | finished (result : Except IndexError Nat)
  /-- The result is part of the statistics. -/
  | joined

namespace Stage

def isBegun : Stage → Bool
  | waiting => false
  | _ => true

/-- The store has what the file defines. -/
def isDone : Stage → Bool
  | finished _ | joined => true
  | _ => false

def isJoined : Stage → Bool
  | joined => true
  | _ => false

end Stage

/-- The task to index a file. -/
structure Task where
  path : Path
  kind : Kind
  stage : Stage := .waiting

namespace Task

def file (t : Task) : Path × Kind := (t.path, t.kind)

/-- One step of a task. -/
def advance (d : Disk) (w : Workspace) (t : Task) : Workspace × Stage :=
  match t.stage with
  | .waiting =>
    match w.registry.register t.path with
    | (registry, none) => ({ w with registry }, .finished (.error .idsExhausted))
    | (registry, some file) => ({ w with registry }, .registered file)
  | .registered file => (w, .read file (d.read t.path))
  | .read file (.error fault) =>
    ({ w with store := (w.store.removeFile file t.kind).1 },
      .finished (.error (.fileRead t.path fault.message)))
  | .read file (.ok text) =>
    let (store, count) := w.store.replace file t.kind (w.settings.patterns.locate file t.kind text)
    ({ w with store }, .finished (.ok count))
  | .finished _ | .joined => (w, .joined)

/-- The statistics after a step: the result of a finished task is added. -/
def collect (stats : Statistics) (t : Task) : Statistics :=
  match t.stage with
  | .finished (.ok count) => stats.recordFile t.kind count
  | .finished (.error e) => stats.addError t.path e.message
  | _ => stats

end Task

end Scan

/-- A scan: the workspace, the tasks, and the statistics so far. -/
structure Scan where
  workspace : Workspace
  tasks : List Scan.Task
  stats : Statistics := {}

namespace Scan

def start (w : Workspace) (files : List (Path × Kind)) : Scan :=
  { workspace := w, tasks := files.map fun file => { path := file.1, kind := file.2 } }

/-- The scan after a step of the task `t`, which stands between `front` and `back`. -/
def move (d : Disk) (w : Workspace) (stats : Statistics) (front : List Task) (t : Task)
    (back : List Task) : Scan :=
  { workspace := (t.advance d w).1
    tasks := front ++ { t with stage := (t.advance d w).2 } :: back
    stats := t.collect stats }

/-- One step of a task that has not come to its end. -/
inductive Step (d : Disk) : Scan → Scan → Prop
  | mk (w : Workspace) (stats : Statistics) (front : List Task) {t : Task} (back : List Task)
      (h : t.stage.isJoined = false) :
      Step d { workspace := w, tasks := front ++ t :: back, stats } (move d w stats front t back)

/-- Steps of any tasks, in any order. -/
def Run (d : Disk) : Scan → Scan → Prop := Relation.ReflTransGen (Step d)

/-- All tasks have come to their end. -/
def Complete (s : Scan) : Prop := ∀ t ∈ s.tasks, t.stage.isJoined = true

instance (s : Scan) : Decidable s.Complete :=
  inferInstanceAs (Decidable (∀ t ∈ s.tasks, t.stage.isJoined = true))

/-! ## Schedules -/

/-- A step of the task with a number, unless it has come to its end. -/
def stepAt (d : Disk) (s : Scan) (number : Nat) : Scan :=
  match s.tasks.drop number with
  | [] => s
  | t :: back =>
    if t.stage.isJoined then s else move d s.workspace s.stats (s.tasks.take number) t back

/-- Steps of the tasks with some numbers. -/
def play (d : Disk) (s : Scan) (schedule : List Nat) : Scan := schedule.foldl (stepAt d) s

theorem run_stepAt (d : Disk) (s : Scan) (number : Nat) : Run d s (s.stepAt d number) := by
  obtain ⟨w, tasks, stats⟩ := s
  unfold stepAt
  split
  · exact .refl
  · next t back hdrop =>
    split_ifs with hjoined
    · exact .refl
    · have hstep := Step.mk (d := d) w stats (tasks.take number) back
        (Bool.eq_false_of_not_eq_true hjoined)
      rw [← hdrop, List.take_append_drop] at hstep
      exact .single hstep

/-- Every schedule is a way to run. -/
theorem run_play (d : Disk) (s : Scan) (schedule : List Nat) : Run d s (s.play d schedule) := by
  induction schedule generalizing s with
  | nil => exact .refl
  | cons number schedule ih => exact (run_stepAt d s number).trans (ih _)

namespace Stage

/-- How many steps are left at most. -/
def rank : Stage → Nat
  | waiting => 4
  | registered _ => 3
  | read _ _ => 2
  | finished _ => 1
  | joined => 0

end Stage

/-- Each step brings a task nearer to its end. -/
theorem Task.rank_advance (d : Disk) (w : Workspace) {t : Task} (h : t.stage.isJoined = false) :
    (t.advance d w).2.rank < t.stage.rank := by
  obtain ⟨p, kind, stage⟩ := t
  cases stage with
  | waiting =>
    rcases hr : w.registry.register p with ⟨registry, _ | file⟩ <;>
      simp [Task.advance, hr, Stage.rank]
  | registered file => exact Nat.lt_add_one 2
  | read file result => cases result <;> exact Nat.lt_add_one 1
  | finished result => exact Nat.lt_add_one 0
  | joined => cases h

/-- Every scan can be brought to its end. -/
theorem exists_complete (d : Disk) (s : Scan) : ∃ s', Run d s s' ∧ s'.Complete := by
  induction hn : (s.tasks.map fun t => t.stage.rank).sum using Nat.strongRecOn generalizing s with
  | ind n ih =>
    by_cases hcomplete : s.Complete
    · exact ⟨s, .refl, hcomplete⟩
    · obtain ⟨w, tasks, stats⟩ := s
      obtain ⟨t, ht, hjoined⟩ : ∃ t ∈ tasks, t.stage.isJoined ≠ true := by
        simpa [Complete] using hcomplete
      obtain ⟨front, back, rfl⟩ := List.append_of_mem ht
      have hjoined := Bool.eq_false_of_not_eq_true hjoined
      have hrank := Task.rank_advance d w hjoined
      have hless : ((move d w stats front t back).tasks.map fun t => t.stage.rank).sum < n := by
        rw [← hn]
        simp [move]
        omega
      obtain ⟨s', hrun, hs'⟩ := ih _ hless _ rfl
      exact ⟨s', .head (.mk w stats front back hjoined) hrun, hs'⟩

/-! ## Counters grow -/

theorem Task.collect_le (stats : Statistics) (t : Task) :
    stats.treesFound ≤ (t.collect stats).treesFound ∧
      stats.filesFailed ≤ (t.collect stats).filesFailed := by
  obtain ⟨p, kind, stage⟩ := t
  cases stage with
  | finished result =>
    cases result with
    | error e => exact ⟨Nat.le_refl _, Nat.le_add_right _ _⟩
    | ok count =>
      cases kind with
      | tree => exact ⟨Nat.le_add_right _ _, Nat.le_refl _⟩
      | node => exact ⟨Nat.le_refl _, Nat.le_refl _⟩
  | _ => exact ⟨Nat.le_refl _, Nat.le_refl _⟩

theorem Run.treesFound_le {d : Disk} {s s' : Scan} (h : Run d s s') :
    s.stats.treesFound ≤ s'.stats.treesFound := by
  induction h with
  | refl => exact Nat.le_refl _
  | tail _ hstep ih =>
    cases hstep with
    | mk w stats front back hjoined => exact ih.trans (Task.collect_le _ _).1

/-! ## One task after the other -/

section

variable (d : Disk) (w : Workspace) (stats : Statistics) (front back : List Task) (p : Path)
  (kind : Kind)

/-- The scan in which one task has come to a stage. -/
def reached (stage : Stage) : Scan :=
  { workspace := w, tasks := front ++ ⟨p, kind, stage⟩ :: back, stats }

/-- The steps of a task, with no other steps in between, index its file. -/
theorem run_indexFile :
    Run d (reached w stats front back p kind .waiting)
      (reached (w.indexFile d p kind).1
        (Task.collect stats ⟨p, kind, .finished (w.indexFile d p kind).2⟩) front back p kind
        .joined) := by
  have hstep : ∀ w stage, stage.isJoined = false → Step d (reached w stats front back p kind stage)
      (move d w stats front ⟨p, kind, stage⟩ back) := fun w stage h => .mk w stats front back h
  have hjoin : ∀ w result, Run d (reached w stats front back p kind (.finished result))
      (reached w (Task.collect stats ⟨p, kind, .finished result⟩) front back p kind .joined) :=
    fun w result => .single (hstep w (.finished result) rfl)
  have hbegin := hstep w .waiting rfl
  rcases hr : w.registry.register p with ⟨registry, _ | file⟩
  · simp only [move, Task.advance, hr] at hbegin
    simp only [Workspace.indexFile, hr]
    exact .head hbegin (hjoin _ _)
  · simp only [move, Task.advance, hr] at hbegin
    have hread := hstep { w with registry } (.registered file) rfl
    have hstore := hstep { w with registry } (.read file (d.read p)) rfl
    simp only [Workspace.indexFile, hr]
    cases hcontent : d.read p with
    | error fault =>
      rw [hcontent] at hstore
      simp only [move, Task.advance, hcontent] at hread
      exact .head hbegin (.head hread (.head hstore (hjoin _ _)))
    | ok text =>
      rw [hcontent] at hstore
      simp only [move, Task.advance, hcontent] at hread
      exact .head hbegin (.head hread (.head hstore (hjoin _ _)))

end

/-- The scan of some files in which all tasks have come to their end. -/
def ended (w : Workspace) (files : List (Path × Kind)) (stats : Statistics) : Scan :=
  { workspace := w, tasks := files.map fun file => ⟨file.1, file.2, .joined⟩, stats }

theorem complete_ended (w : Workspace) (files : List (Path × Kind)) (stats : Statistics) :
    (ended w files stats).Complete := by
  intro t ht
  obtain ⟨file, -, rfl⟩ := List.mem_map.mp ht
  rfl

/-- The scan with further tasks. -/
def beside (s : Scan) (more : List Task) : Scan := { s with tasks := s.tasks ++ more }

/-- Further tasks may wait while others run. -/
theorem Run.beside {d : Disk} {s s' : Scan} (h : Run d s s') (more : List Task) :
    Run d (s.beside more) (s'.beside more) := by
  refine Relation.ReflTransGen.lift (Scan.beside · more) (fun s s' hstep => ?_) s s' h
  cases hstep with
  | mk w stats front back hstage =>
    have hmore := Step.mk (d := d) w stats front (back ++ more) hstage
    simpa only [Function.onFun, Scan.beside, move, List.append_assoc, List.cons_append] using hmore

theorem indexFiles_concat (d : Disk) (w : Workspace) (files : List (Path × Kind))
    (file : Path × Kind) :
    w.indexFiles d (files ++ [file]) =
      (((w.indexFiles d files).1.indexFile d file.1 file.2).1,
        Task.collect (w.indexFiles d files).2
          ⟨file.1, file.2, .finished ((w.indexFiles d files).1.indexFile d file.1 file.2).2⟩) := by
  obtain ⟨p, kind⟩ := file
  rw [Workspace.indexFiles, List.foldl_append, ← Workspace.indexFiles, List.foldl_cons,
    List.foldl_nil]
  rcases w.indexFiles d files with ⟨w', stats⟩
  rcases h : w'.indexFile d p kind with ⟨w'', e | count⟩ <;> simp only [h] <;> rfl

/-- To index files one after the other is one way to scan them. -/
theorem run_indexFiles (d : Disk) (w : Workspace) (files : List (Path × Kind)) :
    Run d (start w files) (ended (w.indexFiles d files).1 files (w.indexFiles d files).2) := by
  induction files using List.reverseRecOn with
  | nil => exact .refl
  | append_singleton files file ih =>
    have hbefore := ih.beside [⟨file.1, file.2, .waiting⟩]
    have hlast := run_indexFile d (w.indexFiles d files).1 (w.indexFiles d files).2
      (files.map fun file => ⟨file.1, file.2, .joined⟩) [] file.1 file.2
    rw [indexFiles_concat]
    simp only [start, ended, List.map_append, List.map_singleton]
    exact hbefore.trans hlast

/-! ## What the files contribute -/

section

variable (settings : Settings) (d : Disk)

/-- What a file defines of a kind, if it is indexed for the kind and can be read. -/
def contribution? (kind : Kind) (file : Path × Kind) : Option (Path × Sites) :=
  if file.2 = kind then
    (d.content? file.1).map fun text => (file.1, settings.patterns.sites kind text)
  else none

/-- The history of a kind once some files are in the store, in that order. -/
def entries (kind : Kind) (order : List (Path × Kind)) : History :=
  order.filterMap (contribution? settings d kind)

/-- The result of the task of a file. -/
def outcome (file : Path × Kind) : Except IndexError Nat :=
  match d.read file.1 with
  | .ok text => .ok (settings.patterns.sites file.2 text).length
  | .error fault => .error (.fileRead file.1 fault.message)

/-- What a file adds to the counters. -/
def share (file : Path × Kind) : Nat × Nat × Nat × Nat :=
  match d.read file.1, file.2 with
  | .ok text, .tree => (1, 0, (settings.patterns.sites .tree text).length, 0)
  | .ok text, .node => (1, 0, 0, (settings.patterns.sites .node text).length)
  | .error _, _ => (0, 1, 0, 0)

variable {settings : Settings} {d : Disk} {p : Path} {k : Kind}

theorem contribution?_of_error {fault : Disk.Fault} (h : d.read p = .error fault) (kind : Kind) :
    contribution? settings d kind (p, k) = none := by
  rw [contribution?, Disk.content?, h]
  exact ite_self _

theorem contribution?_of_ok {text : String} (h : d.read p = .ok text) (kind : Kind) :
    contribution? settings d kind (p, k) =
      if k = kind then some (p, settings.patterns.sites kind text) else none := by
  rw [contribution?, Disk.content?, h]
  rfl

end

end Scan

/-- Files indexed, files failed, trees found and nodes found. -/
def Statistics.counters (s : Statistics) : Nat × Nat × Nat × Nat :=
  (s.filesIndexed, s.filesFailed, s.treesFound, s.nodesFound)

namespace Scan

/-- The files of the tasks at some stages. -/
def filesAt (q : Stage → Bool) (tasks : List Task) : List (Path × Kind) :=
  (tasks.filter fun t => q t.stage).map Task.file

section

variable {settings : Settings} {d : Disk} {q : Stage → Bool} {front back : List Task} {t : Task}
  {stage : Stage}

theorem filesAt_append (tasks more : List Task) :
    filesAt q (tasks ++ more) = filesAt q tasks ++ filesAt q more := by
  rw [filesAt, List.filter_append, List.map_append, ← filesAt, ← filesAt]

theorem filesAt_cons (tasks : List Task) :
    filesAt q (t :: tasks) = if q t.stage then t.file :: filesAt q tasks else filesAt q tasks := by
  rw [filesAt, List.filter_cons]
  split_ifs <;> rfl

theorem filesAt_move_of_eq (h : q stage = q t.stage) :
    filesAt q (front ++ { t with stage } :: back) = filesAt q (front ++ t :: back) := by
  rw [filesAt_append, filesAt_append, filesAt_cons, filesAt_cons, h]
  rfl

theorem filesAt_move_of_ne (ht : q t.stage = false) (hstage : q stage = true) :
    (filesAt q (front ++ { t with stage } :: back)).Perm
      (filesAt q (front ++ t :: back) ++ [t.file]) := by
  rw [filesAt_append, filesAt_append, filesAt_cons, filesAt_cons, if_pos hstage,
    if_neg (by simp [ht])]
  exact List.perm_middle.trans (List.perm_append_singleton _ _).symm

theorem counters_collect {p : Path} {kind : Kind} (stats : Statistics) :
    (Task.collect stats ⟨p, kind, .finished (outcome settings d (p, kind))⟩).counters =
      stats.counters + share settings d (p, kind) := by
  rw [Task.collect, outcome, share]
  cases d.read p with
  | error fault => rfl
  | ok text => cases kind <;> rfl

end

/-! ## The invariant -/

/-- What a task holds is what it would hold without the others. -/
def Task.Consistent (settings : Settings) (d : Disk) (r : Registry) (t : Task) : Prop :=
  match t.stage with
  | .registered file => r.id? t.path = some file
  | .read file result => r.id? t.path = some file ∧ result = d.read t.path
  | .finished result => result = outcome settings d t.file
  | .waiting | .joined => True

/-- The tasks have registered `paths`, in that order, and put the files of `order` in the store, in
that order. -/
structure Inv (settings : Settings) (d : Disk) (files : List (Path × Kind)) (paths : List Path)
    (order : List (Path × Kind)) (s : Scan) : Prop where
  settings_eq : s.workspace.settings = settings
  files_eq : s.tasks.map Task.file = files
  mirrors : s.workspace.Mirrors paths fun kind => entries settings d kind order
  paths_perm : paths.Perm ((filesAt Stage.isBegun s.tasks).map Prod.fst)
  order_perm : order.Perm (filesAt Stage.isDone s.tasks)
  counters_eq : s.stats.counters =
    ((filesAt Stage.isJoined s.tasks).map (share settings d)).sum
  consistent : ∀ t ∈ s.tasks, t.Consistent settings d s.workspace.registry

theorem filesAt_start (q : Stage → Bool) (h : q .waiting = false) (w : Workspace)
    (files : List (Path × Kind)) : filesAt q (start w files).tasks = [] := by
  rw [filesAt, List.map_eq_nil_iff, List.filter_eq_nil_iff]
  intro t ht
  obtain ⟨file, -, rfl⟩ := List.mem_map.mp ht
  simp [h]

theorem inv_start (settings : Settings) (d : Disk) (root : Path) (files : List (Path × Kind)) :
    Inv settings d files [] [] (start (.new d settings root) files) where
  settings_eq := rfl
  files_eq := by
    rw [start, List.map_map]
    exact List.map_id _
  mirrors := Workspace.mirrors_new d settings root
  paths_perm := by
    rw [filesAt_start _ rfl]
    exact .nil
  order_perm := by
    rw [filesAt_start _ rfl]
  counters_eq := by
    rw [filesAt_start _ rfl]
    rfl
  consistent t ht := by
    obtain ⟨file, -, rfl⟩ := List.mem_map.mp ht
    trivial

theorem Task.Consistent.mono {settings : Settings} {d : Disk} {r r' : Registry} {t : Task}
    (h : t.Consistent settings d r)
    (hids : ∀ p id, r.id? p = some id → r'.id? p = some id) : t.Consistent settings d r' := by
  unfold Task.Consistent at h ⊢
  split at h
  · exact hids _ _ h
  · exact ⟨hids _ _ h.1, h.2⟩
  · exact h
  · trivial
  · trivial

namespace Inv

variable {settings : Settings} {d : Disk} {files : List (Path × Kind)} {paths paths' : List Path}
  {order order' : List (Path × Kind)} {w w' : Workspace} {stats stats' : Statistics}
  {front back : List Task} {t : Task} {stage : Stage}

theorem length_filesAt_le (q : Stage → Bool) (tasks : List Task) :
    (filesAt q tasks).length ≤ tasks.length := by
  rw [filesAt, List.length_map]
  exact List.length_filter_le _ _

theorem entries_concat (kind : Kind) (order : List (Path × Kind)) (file : Path × Kind) :
    entries settings d kind (order ++ [file]) =
      entries settings d kind order ++ (contribution? settings d kind file).toList := by
  rw [entries, List.filterMap_append]
  cases h : contribution? settings d kind file <;> simp [entries, h]

section

variable
  (h : Inv settings d files paths order { workspace := w, tasks := front ++ t :: back, stats })

include h

/-- A task goes to another stage. What remains to be shown is about this task. -/
theorem move (hsettings : w'.settings = w.settings)
    (hids : ∀ p id, w.registry.id? p = some id → w'.registry.id? p = some id)
    (hstage : { t with stage }.Consistent settings d w'.registry)
    (hmirrors : w'.Mirrors paths' fun kind => entries settings d kind order')
    (hpaths : paths'.Perm
      ((filesAt Stage.isBegun (front ++ { t with stage } :: back)).map Prod.fst))
    (horder : order'.Perm (filesAt Stage.isDone (front ++ { t with stage } :: back)))
    (hcounters : stats'.counters =
      ((filesAt Stage.isJoined (front ++ { t with stage } :: back)).map (share settings d)).sum) :
    Inv settings d files paths' order'
      { workspace := w', tasks := front ++ { t with stage } :: back, stats := stats' } where
  settings_eq := hsettings.trans h.settings_eq
  files_eq := by
    rw [← h.files_eq, List.map_append, List.map_append]
    rfl
  mirrors := hmirrors
  paths_perm := hpaths
  order_perm := horder
  counters_eq := hcounters
  consistent t' ht' := by
    have hold : t' ∈ front ++ t :: back → t'.Consistent settings d w'.registry := fun ht' =>
      (h.consistent t' ht').mono hids
    rcases List.mem_append.mp ht' with hfront | ht'
    · exact hold (List.mem_append_left _ hfront)
    · rcases List.mem_cons.mp ht' with rfl | hback
      · exact hstage
      · exact hold (List.mem_append_right _ (List.mem_cons_of_mem _ hback))

/-! ### The stages of a task -/

theorem paths_perm_move (hstage : stage.isBegun = t.stage.isBegun) :
    paths.Perm ((filesAt Stage.isBegun (front ++ { t with stage } :: back)).map Prod.fst) := by
  rw [filesAt_move_of_eq hstage]
  exact h.paths_perm

theorem order_perm_move (hstage : stage.isDone = t.stage.isDone) :
    order.Perm (filesAt Stage.isDone (front ++ { t with stage } :: back)) := by
  rw [filesAt_move_of_eq hstage]
  exact h.order_perm

theorem counters_eq_move (hstage : stage.isJoined = t.stage.isJoined) :
    stats.counters = ((filesAt Stage.isJoined (front ++ { t with stage } :: back)).map
      (share settings d)).sum := by
  rw [filesAt_move_of_eq hstage]
  exact h.counters_eq

/-- There is a number for each path. -/
theorem register (hfew : files.length ≤ Registry.idCount) (hstage : t.stage = .waiting) :
    Inv settings d files (paths ++ [t.path]) order (Scan.move d w stats front t back) := by
  have hperm : ∀ stage : Stage, stage.isBegun = true → (paths ++ [t.path]).Perm
      ((filesAt Stage.isBegun (front ++ { t with stage } :: back)).map Prod.fst) := by
    intro stage hbegun
    have hnew : (filesAt Stage.isBegun (front ++ { t with stage } :: back)).Perm
        (filesAt Stage.isBegun (front ++ t :: back) ++ [t.file]) :=
      filesAt_move_of_ne (by rw [hstage]; rfl) hbegun
    have hmap := hnew.map Prod.fst
    rw [List.map_append] at hmap
    exact (h.paths_perm.append_right _).trans hmap.symm
  have hroom : ((paths ++ [t.path]).map Path.normal).toFinset.card ≤ Registry.idCount := by
    refine Nat.le_trans (List.toFinset_card_le _) (Nat.le_trans ?_ hfew)
    rw [List.length_map, (hperm .joined rfl).length_eq, List.length_map, ← h.files_eq]
    refine Nat.le_trans (length_filesAt_le _ _) ?_
    simp
  obtain ⟨-, file, hfile⟩ := h.mirrors.registry.register hroom
  have hadvance : t.advance d w =
      ({ w with registry := (w.registry.register t.path).1 }, .registered file) := by
    rw [Task.advance, hstage]
    rcases hr : w.registry.register t.path with ⟨registry, _ | id⟩
    · rw [hr] at hfile
      cases hfile
    · rw [hr] at hfile
      cases hfile
      rfl
  have hcollect : t.collect stats = stats := by rw [Task.collect, hstage]
  rw [Scan.move, hadvance, hcollect]
  exact h.move rfl (fun p id hid => Registry.id?_register_of_some hid t.path)
    (Registry.id?_register_self hfile) (h.mirrors.register hroom) (hperm _ rfl)
    (h.order_perm_move (by rw [hstage]; rfl)) (h.counters_eq_move (by rw [hstage]; rfl))

theorem read {file : FileId} (hstage : t.stage = .registered file) :
    Inv settings d files paths order (Scan.move d w stats front t back) := by
  have hid := h.consistent t (List.mem_append_right _ List.mem_cons_self)
  rw [Task.Consistent, hstage] at hid
  have hadvance : t.advance d w = (w, .read file (d.read t.path)) := by rw [Task.advance, hstage]
  have hcollect : t.collect stats = stats := by rw [Task.collect, hstage]
  rw [Scan.move, hadvance, hcollect]
  exact h.move rfl (fun p id hid => hid) ⟨hid, rfl⟩ h.mirrors
    (h.paths_perm_move (by rw [hstage]; rfl)) (h.order_perm_move (by rw [hstage]; rfl))
    (h.counters_eq_move (by rw [hstage]; rfl))

/-- A file whose task is not done has no entry yet. -/
theorem without_entries (hdistinct : (files.map fun file => file.1.normal).Nodup)
    (hstage : t.stage.isDone = false) (kind : Kind) :
    (entries settings d kind order).without t.path = entries settings d kind order := by
  have hothers : ∀ file ∈ order, file.1.normal ≠ t.path.normal := by
    intro file hfile heq
    have hnodup := hdistinct
    rw [← h.files_eq, List.map_map, List.map_append, List.map_cons, List.nodup_middle,
      List.nodup_cons] at hnodup
    have hmem := h.order_perm.mem_iff.mp hfile
    rw [filesAt_append, filesAt_cons, if_neg (by simp [hstage]), ← filesAt_append] at hmem
    obtain ⟨t', ht', rfl⟩ := List.mem_map.mp hmem
    rw [← List.map_append] at hnodup
    exact hnodup.1 (List.mem_map.mpr ⟨t', List.mem_of_mem_filter ht', heq⟩)
  refine List.filter_eq_self.mpr fun entry hentry => ?_
  obtain ⟨file, hfile, hentry⟩ := List.mem_filterMap.mp hentry
  have hpath : entry.1 = file.1 := by
    unfold contribution? at hentry
    split_ifs at hentry
    obtain ⟨text, -, rfl⟩ := Option.map_eq_some_iff.mp hentry
    rfl
  rw [hpath]
  simpa using hothers file hfile

/-- The store has what the file defines, and the task has the result of the file. -/
theorem finish {file : FileId} {result : Except Disk.Fault String}
    (hstage : t.stage = .read file result)
    (hadvance : t.advance d w = (w', .finished (outcome settings d t.file)))
    (hsettings : w'.settings = w.settings) (hregistry : w'.registry = w.registry)
    (hmirrors : w'.Mirrors paths fun kind => entries settings d kind (order ++ [t.file])) :
    Inv settings d files paths (order ++ [t.file]) (Scan.move d w stats front t back) := by
  have hcollect : t.collect stats = stats := by rw [Task.collect, hstage]
  rw [Scan.move, hadvance, hcollect]
  have hnew : (filesAt Stage.isDone
      (front ++ { t with stage := .finished (outcome settings d t.file) } :: back)).Perm
      (filesAt Stage.isDone (front ++ t :: back) ++ [t.file]) :=
    filesAt_move_of_ne (by rw [hstage]; rfl) rfl
  exact h.move hsettings (fun p id hid => by rwa [hregistry]) rfl hmirrors
    (h.paths_perm_move (by rw [hstage]; rfl)) ((h.order_perm.append_right _).trans hnew.symm)
    (h.counters_eq_move (by rw [hstage]; rfl))

theorem store {file : FileId} {result : Except Disk.Fault String}
    (hdistinct : (files.map fun file => file.1.normal).Nodup)
    (hstage : t.stage = .read file result) :
    Inv settings d files paths (order ++ [t.file]) (Scan.move d w stats front t back) := by
  obtain ⟨hid, hresult⟩ : w.registry.id? t.path = some file ∧ result = d.read t.path := by
    have hread := h.consistent t (List.mem_append_right _ List.mem_cons_self)
    rwa [Task.Consistent, hstage] at hread
  have hwithout := h.without_entries hdistinct (by rw [hstage]; rfl)
  have hsettings : w.settings = settings := h.settings_eq
  cases hread : d.read t.path with
  | error fault =>
    have hadvance : t.advance d w = ({ w with store := (w.store.removeFile file t.kind).1 },
        .finished (outcome settings d t.file)) := by
      rw [Task.advance, hstage, hresult, hread, outcome, Task.file, hread]
    have hmirrors := h.mirrors.without hid t.kind
    have hentries : ∀ kind, (if t.kind = kind then (entries settings d kind order).without t.path
        else entries settings d kind order) = entries settings d kind (order ++ [t.file]) := by
      intro kind
      rw [hwithout, ite_self, entries_concat, Task.file, contribution?_of_error hread,
        Option.toList_none, List.append_nil]
    simp only [hentries] at hmirrors
    exact h.finish hstage hadvance rfl rfl hmirrors
  | ok text =>
    have hadvance : t.advance d w = ({ w with store := (w.store.replace file t.kind
        ((settings.patterns.sites t.kind text).placed file)).1 },
        .finished (outcome settings d t.file)) := by
      simp [Task.advance, hstage, hresult, hread, outcome, Task.file, hsettings, Store.replace,
        Source.Patterns.locate_eq_placed, Sites.placed]
    have hmirrors := h.mirrors.renew hid t.kind (settings.patterns.sites t.kind text)
    have hentries : ∀ kind, (if t.kind = kind then
        (entries settings d kind order).renew t.path (settings.patterns.sites t.kind text)
        else entries settings d kind order) = entries settings d kind (order ++ [t.file]) := by
      intro kind
      rw [History.renew, hwithout, entries_concat, Task.file, contribution?_of_ok hread]
      split_ifs with hkind
      · rw [hkind]
        rfl
      · rw [Option.toList_none, List.append_nil]
    simp only [hentries] at hmirrors
    exact h.finish hstage hadvance rfl rfl hmirrors

theorem join {result : Except IndexError Nat} (hstage : t.stage = .finished result) :
    Inv settings d files paths order (Scan.move d w stats front t back) := by
  have hresult := h.consistent t (List.mem_append_right _ List.mem_cons_self)
  rw [Task.Consistent, hstage] at hresult
  have hadvance : t.advance d w = (w, .joined) := by rw [Task.advance, hstage]
  rw [Scan.move, hadvance]
  refine h.move rfl (fun p id hid => hid) trivial h.mirrors
    (h.paths_perm_move (by rw [hstage]; rfl)) (h.order_perm_move (by rw [hstage]; rfl)) ?_
  have hnew : (filesAt Stage.isJoined (front ++ { t with stage := .joined } :: back)).Perm
      (filesAt Stage.isJoined (front ++ t :: back) ++ [t.file]) :=
    filesAt_move_of_ne (by rw [hstage]; rfl) rfl
  have hcounters := h.counters_eq
  obtain ⟨p, kind, stage⟩ := t
  cases hstage
  rw [hresult, (hnew.map _).sum_eq, List.map_append, List.sum_append, List.map_singleton,
    List.sum_singleton, ← hcounters]
  exact counters_collect stats

end

/-- **One step.** Every step of a task keeps the invariant. -/
theorem step {s s' : Scan} (h : Inv settings d files paths order s) (hstep : Step d s s')
    (hdistinct : (files.map fun file => file.1.normal).Nodup)
    (hfew : files.length ≤ Registry.idCount) :
    ∃ paths' order', Inv settings d files paths' order' s' := by
  cases hstep with
  | @mk w stats front t back hjoined =>
    cases hstage : t.stage with
    | waiting => exact ⟨_, _, h.register hfew hstage⟩
    | registered file => exact ⟨_, _, h.read hstage⟩
    | read file result => exact ⟨_, _, h.store hdistinct hstage⟩
    | finished result => exact ⟨_, _, h.join hstage⟩
    | joined =>
      rw [hstage] at hjoined
      cases hjoined

end Inv

/-- **A run.** The invariant holds in every state that is reached. -/
theorem Run.inv {settings : Settings} {d : Disk} {root : Path} {files : List (Path × Kind)}
    {s : Scan} (h : Run d (start (.new d settings root) files) s)
    (hdistinct : (files.map fun file => file.1.normal).Nodup)
    (hfew : files.length ≤ Registry.idCount) :
    ∃ paths order, Inv settings d files paths order s := by
  induction h with
  | refl => exact ⟨_, _, inv_start settings d root files⟩
  | tail _ hstep ih =>
    obtain ⟨paths, order, hinv⟩ := ih
    exact hinv.step hstep hdistinct hfew

/-! ## Complete runs -/

/-- Where a file defines a name. -/
def sitesIn (settings : Settings) (d : Disk) (kind : Kind) (name : String) (p : Path) :
    List (Path × UInt32 × UInt32) :=
  (((d.content? p).elim [] (settings.patterns.sites kind)).filter fun site => site.1 = name).map
    fun site => (p, site.2)

/-- Places in the order of a text: at offsets that grow. Where lines and columns have 32 bits, these
grow as well. -/
structure InOrder (text : String) (places : List (UInt32 × UInt32)) : Prop where
  offsets : ∃ offsets : List Nat, offsets.Pairwise (· < ·) ∧
    places = offsets.map (Text.LineIndex.ofText text.toList).position
  before : Text.byteSize text.toList < UInt32.size →
    places.Pairwise fun a b => Text.Before (Text.toNats a) (Text.toNats b)

/-- The definitions of a file stand together, in the order of its text. -/
structure Grouped (settings : Settings) (d : Disk) (files : List (Path × Kind)) (s : Scan) :
    Prop where
  mem_files : ∀ kind name, ∀ definition ∈ s.workspace.definitions kind name,
    (definition.path, kind) ∈ files
  block : ∀ kind name p, (p, kind) ∈ files → ∃ front back,
    (s.workspace.definitions kind name).map Definition.site =
      front ++ sitesIn settings d kind name p ++ back ∧
    (∀ site ∈ front ++ back, site.1 ≠ p) ∧
    ∀ text, d.content? p = some text →
      InOrder text ((sitesIn settings d kind name p).map Prod.snd)

/-- Two scans have found the same. -/
structure Agree (s s' : Scan) : Prop where
  definitions : ∀ kind name, ((s.workspace.definitions kind name).map Definition.site).Perm
    ((s'.workspace.definitions kind name).map Definition.site)
  names : ∀ kind, s.workspace.store.names kind = s'.workspace.store.names kind
  completions : ∀ kind start,
    s.workspace.completions kind start = s'.workspace.completions kind start
  size : ∀ kind, s.workspace.store.size kind = s'.workspace.store.size kind
  counters : s.stats.counters = s'.stats.counters

section

variable {settings : Settings} {d : Disk} {files : List (Path × Kind)} {paths : List Path}
  {order : List (Path × Kind)} {s s' : Scan}

theorem Complete.filesAt_eq (h : s.Complete) {q : Stage → Bool} (hq : q .joined = true) :
    filesAt q s.tasks = s.tasks.map Task.file := by
  rw [filesAt, List.filter_eq_self.mpr]
  intro t ht
  have hjoined := h t ht
  cases hstage : t.stage with
  | joined => exact hq
  | _ =>
    rw [hstage] at hjoined
    cases hjoined

theorem inOrder_sitesIn {p : Path} {text : String} (h : d.content? p = some text) (kind : Kind)
    (name : String) : InOrder text ((sitesIn settings d kind name p).map Prod.snd) := by
  have hplaces : (sitesIn settings d kind name p).map Prod.snd =
      ((settings.patterns.scan kind text).filter fun found => found.1 = name).map
        fun found => (Text.LineIndex.ofText text.toList).position found.2 := by
    rw [sitesIn, h, Option.elim, Source.Patterns.sites, List.filter_map, List.map_map,
      List.map_map]
    rfl
  rw [hplaces]
  refine ⟨⟨_, List.Pairwise.map Prod.snd (fun _ _ hlt => hlt)
    ((settings.patterns.pairwise_scanFrom kind none 0 text.toList).filter _),
    by rw [List.map_map]; rfl⟩, fun hsize => ?_⟩
  exact List.Pairwise.map _ (fun _ _ hbefore => hbefore)
    ((settings.patterns.pairwise_before_scan kind hsize).filter _)

theorem path_of_mem_sitesIn {kind : Kind} {name : String} {p : Path} {site : Path × UInt32 × UInt32}
    (h : site ∈ sitesIn settings d kind name p) : site.1 = p := by
  obtain ⟨_, -, rfl⟩ := List.mem_map.mp h
  rfl

/-- Where some files define a name, in the order of the files. -/
def sitesOf (settings : Settings) (d : Disk) (kind : Kind) (name : String)
    (order : List (Path × Kind)) : List (Path × UInt32 × UInt32) :=
  order.flatMap fun file => if file.2 = kind then sitesIn settings d kind name file.1 else []

theorem mem_of_mem_sitesOf {kind : Kind} {name : String} {site : Path × UInt32 × UInt32}
    (h : site ∈ sitesOf settings d kind name order) : (site.1, kind) ∈ order := by
  obtain ⟨file, hfile, hsite⟩ := List.mem_flatMap.mp h
  split_ifs at hsite with hkind
  · rw [path_of_mem_sitesIn hsite, ← hkind]
    exact hfile
  · cases hsite

theorem sites_entries (kind : Kind) (name : String) (order : List (Path × Kind)) :
    (entries settings d kind order).sites name = sitesOf settings d kind name order := by
  induction order with
  | nil => rfl
  | cons file order ih =>
    have hsites : (entries settings d kind (file :: order)).sites name =
        History.sites (contribution? settings d kind file).toList name ++
          (entries settings d kind order).sites name := by
      rw [entries, List.filterMap_cons]
      cases contribution? settings d kind file with
      | none => rfl
      | some entry => simp [History.sites, entries]
    rw [hsites, ih, sitesOf, sitesOf, List.flatMap_cons]
    congr 1
    rw [contribution?, sitesIn]
    split_ifs with hkind
    · cases d.content? file.1 with
      | none => rfl
      | some text => simp [History.sites]
    · rfl

namespace Inv

theorem order_perm_files (h : Inv settings d files paths order s) (hcomplete : s.Complete) :
    order.Perm files := by
  have hperm := h.order_perm
  rwa [hcomplete.filesAt_eq rfl, h.files_eq] at hperm

/-- The definitions of a name are those of the files, in the order in which they were put in. -/
theorem sites_definitions (h : Inv settings d files paths order s) (hcomplete : s.Complete)
    (hdistinct : (files.map fun file => file.1.normal).Nodup) (kind : Kind) (name : String) :
    (s.workspace.definitions kind name).map Definition.site =
      sitesOf settings d kind name order := by
  have hpaths : paths.Perm (files.map Prod.fst) := by
    have hperm := h.paths_perm
    rwa [hcomplete.filesAt_eq rfl, h.files_eq] at hperm
  have hnodup : (paths.map Path.normal).Nodup := by
    rw [(hpaths.map _).nodup_iff, List.map_map]
    exact hdistinct
  rw [h.mirrors.sites_definitions, sites_entries]
  refine (List.map_congr_left fun site hsite => ?_).trans (List.map_id _)
  have hmem : site.1 ∈ paths := by
    have hfile := (h.order_perm_files hcomplete).mem_iff.mp (mem_of_mem_sitesOf hsite)
    exact hpaths.mem_iff.mpr (List.mem_map.mpr ⟨_, hfile, rfl⟩)
  rw [Path.firstOf_eq_self hnodup hmem]
  rfl

theorem grouped (h : Inv settings d files paths order s) (hcomplete : s.Complete)
    (hdistinct : (files.map fun file => file.1.normal).Nodup) : Grouped settings d files s := by
  have hperm := h.order_perm_files hcomplete
  refine ⟨fun kind name definition hdefinition => ?_, fun kind name p hp => ?_⟩
  · have hsite : definition.site ∈ sitesOf settings d kind name order := by
      rw [← h.sites_definitions hcomplete hdistinct]
      exact List.mem_map_of_mem hdefinition
    exact hperm.mem_iff.mp (mem_of_mem_sitesOf hsite)
  · obtain ⟨before, after, rfl⟩ := List.append_of_mem (hperm.mem_iff.mpr hp)
    -- No other file has this path.
    have hnotMem : (p, kind) ∉ before ++ after := by
      have hnodup := hperm.nodup_iff.mpr hdistinct.of_map
      rw [List.nodup_middle, List.nodup_cons] at hnodup
      exact hnodup.1
    refine ⟨sitesOf settings d kind name before, sitesOf settings d kind name after, ?_, ?_,
      fun text htext => inOrder_sitesIn htext kind name⟩
    · rw [h.sites_definitions hcomplete hdistinct, sitesOf, List.flatMap_append, List.flatMap_cons,
        if_pos rfl, List.append_assoc]
      rfl
    · rintro site hsite rfl
      rw [sitesOf, sitesOf, ← List.flatMap_append] at hsite
      exact hnotMem (mem_of_mem_sitesOf hsite)

theorem mem_names (h : Inv settings d files paths order s) (hcomplete : s.Complete) (kind : Kind)
    (name : String) :
    name ∈ s.workspace.store.names kind ↔ sitesOf settings d kind name files ≠ [] := by
  have hperm : (sitesOf settings d kind name order).Perm (sitesOf settings d kind name files) :=
    (h.order_perm_files hcomplete).flatMap_right _
  rw [h.mirrors.mem_names, sites_entries, ne_eq, ne_eq, ← List.length_eq_zero_iff, hperm.length_eq,
    List.length_eq_zero_iff]

end Inv

/-- **The scan does not depend on scheduling.** -/
theorem agree_of_complete {root : Path}
    (hdistinct : (files.map fun file => file.1.normal).Nodup)
    (hfew : files.length ≤ Registry.idCount)
    (hrun : Run d (start (.new d settings root) files) s) (hcomplete : s.Complete)
    (hrun' : Run d (start (.new d settings root) files) s') (hcomplete' : s'.Complete) :
    Agree s s' ∧ Grouped settings d files s ∧ Grouped settings d files s' := by
  obtain ⟨paths, order, h⟩ := hrun.inv hdistinct hfew
  obtain ⟨paths', order', h'⟩ := hrun'.inv hdistinct hfew
  have hnames : ∀ kind, s.workspace.store.names kind = s'.workspace.store.names kind := by
    intro kind
    refine List.Pairwise.eq_of_mem_iff (Table.names_ascending _) (Table.names_ascending _) ?_
    intro name
    exact (h.mem_names hcomplete kind name).trans (h'.mem_names hcomplete' kind name).symm
  refine ⟨⟨fun kind name => ?_, hnames, fun kind start => ?_, fun kind => ?_, ?_⟩,
    h.grouped hcomplete hdistinct, h'.grouped hcomplete' hdistinct⟩
  · rw [h.sites_definitions hcomplete hdistinct, h'.sites_definitions hcomplete' hdistinct]
    have horders := (h.order_perm_files hcomplete).trans (h'.order_perm_files hcomplete').symm
    exact horders.flatMap_right _
  · rw [Workspace.completions, Workspace.completions, hnames]
  · rw [(Store.answers_of_tracks (h.mirrors.store kind)).size,
      (Store.answers_of_tracks (h'.mirrors.store kind)).size, hnames]
  · rw [h.counters_eq, h'.counters_eq, hcomplete.filesAt_eq rfl, hcomplete'.filesAt_eq rfl,
      h.files_eq, h'.files_eq]

end

/-- A disk with two files that define the same tree. -/
def twins : Disk :=
  ⟨.ofList [("/a.xml", Disk.Entry.file "<BehaviorTree ID='T'/>".toUTF8),
    ("/b.xml", Disk.Entry.file "\n<BehaviorTree ID='T'/>".toUTF8)], "/"⟩

def twinFiles : List (Path × Kind) := [("/a.xml", .tree), ("/b.xml", .tree)]

def twinScan : List Nat → Scan := (start (.new twins (.defaults 1) "/") twinFiles).play twins

/-- One run takes the files one after the other. In the other both files are read before either is
in the store, and the second comes first. -/
theorem agree_twins :
    let s := twinScan [0, 0, 0, 0, 1, 1, 1, 1]
    let s' := twinScan [0, 1, 1, 0, 1, 0, 0, 1]
    s.Complete ∧ s'.Complete ∧
      (s.workspace.definitions .tree "T").map Definition.site =
        [("/a.xml", 0, 0), ("/b.xml", 1, 0)] ∧
      (s'.workspace.definitions .tree "T").map Definition.site =
        [("/b.xml", 1, 0), ("/a.xml", 0, 0)] ∧
      Agree s s' ∧ Grouped (.defaults 1) twins twinFiles s ∧
      Grouped (.defaults 1) twins twinFiles s' := by
  intro s s'
  have hcomplete : s.Complete := by decide +kernel
  have hcomplete' : s'.Complete := by decide +kernel
  exact ⟨hcomplete, hcomplete', by decide +kernel, by decide +kernel,
    agree_of_complete (by decide +kernel) (by decide +kernel) (run_play twins _ _) hcomplete
      (run_play twins _ _) hcomplete'⟩

/-! ## More files than numbers -/

theorem registry_indexFiles (w : Workspace) (d : Disk) (files : List (Path × Kind)) :
    (w.indexFiles d files).1.registry = w.registry.registerAll (files.map Prod.fst) := by
  induction files using List.reverseRecOn with
  | nil => rfl
  | append_singleton files file ih =>
    rw [indexFiles_concat, Workspace.registry_indexFile, ih, List.map_append, Registry.registerAll_append]
    rfl

/-- The file that finds all numbers given out is refused. -/
theorem indexFile_of_full (d : Disk) (settings : Settings) (root : Path)
    {files : List (Path × Kind)} {p : Path}
    (hdistinct : (files.map fun file => file.1.normal).Nodup)
    (hfull : files.length = Registry.idCount)
    (hnew : p.normal ∉ files.map fun file => file.1.normal) (kind : Kind) :
    (((Workspace.new d settings root).indexFiles d files).1.indexFile d p kind).2 =
      .error .idsExhausted := by
  have hnone : ((((Workspace.new d settings root).indexFiles d files).1).registry.register p).2 =
      none := by
    rw [registry_indexFiles]
    refine Registry.register_eq_none_of_nodup ?_ ?_ ?_
    · rwa [List.map_map]
    · rwa [List.length_map]
    · rwa [List.map_map]
  generalize ((Workspace.new d settings root).indexFiles d files).1 = w at hnone ⊢
  rw [Workspace.indexFile]
  rcases hregister : w.registry.register p with ⟨registry, _ | id⟩
  · rfl
  · rw [hregister] at hnone
    cases hnone

theorem filesFailed_indexFiles_append (w : Workspace) (d : Disk) (front back : List (Path × Kind)) :
    (w.indexFiles d front).2.filesFailed ≤ (w.indexFiles d (front ++ back)).2.filesFailed := by
  induction back using List.reverseRecOn with
  | nil => rw [List.append_nil]
  | append_singleton back file ih =>
    rw [← List.append_assoc, indexFiles_concat]
    exact ih.trans (Task.collect_le _ _).2

/-- Of more files than there are numbers, one is refused. -/
theorem filesFailed_pos (d : Disk) (settings : Settings) (root : Path) {files : List (Path × Kind)}
    (hdistinct : (files.map fun file => file.1.normal).Nodup)
    (hmany : Registry.idCount < files.length) :
    0 < ((Workspace.new d settings root).indexFiles d files).2.filesFailed := by
  obtain ⟨front, file, back, hfront, rfl⟩ : ∃ front file back,
      front.length = Registry.idCount ∧ files = front ++ [file] ++ back := by
    refine ⟨files.take Registry.idCount, files[Registry.idCount], files.drop (Registry.idCount + 1),
      List.length_take_of_le (Nat.le_of_lt hmany), ?_⟩
    rw [List.append_assoc, List.singleton_append, List.getElem_cons_drop, List.take_append_drop]
  rw [List.map_append, List.map_append, List.map_singleton, ← List.concat_eq_append] at hdistinct
  obtain ⟨hnew, hnodup⟩ := (List.nodup_concat _ _).mp hdistinct.of_append_left
  refine Nat.lt_of_lt_of_le ?_ (filesFailed_indexFiles_append _ _ (front ++ [file]) back)
  rw [indexFiles_concat, indexFile_of_full d settings root hnodup hfront hnew]
  exact Nat.succ_pos _

/-- A run that takes the files one after the other counts the refused one. -/
theorem exists_run_refused (d : Disk) (settings : Settings) (root : Path)
    {files : List (Path × Kind)} (hdistinct : (files.map fun file => file.1.normal).Nodup)
    (hmany : Registry.idCount < files.length) :
    ∃ s, Run d (start (.new d settings root) files) s ∧ s.Complete ∧ 0 < s.stats.filesFailed :=
  ⟨_, run_indexFiles d _ files, complete_ended _ _ _, filesFailed_pos d settings root hdistinct hmany⟩

/-- A disk with one file, which defines a tree. -/
def lone : Disk := ⟨.ofList [("/t.xml", Disk.Entry.file "<BehaviorTree ID='T'/>".toUTF8)], "/"⟩

/-- The file, behind others, which may hold nodes. -/
def crowd (count : Nat) : List (Path × Kind) :=
  (Registry.letteredPaths count).map (·, .node) ++ [("/t.xml", .tree)]

theorem normals_nodes (paths : List Path) :
    (paths.map (·, Kind.node)).map (fun file => file.1.normal) = paths.map Path.normal := by
  rw [List.map_map]
  rfl

theorem normal_notMem_lettered (count : Nat) :
    Path.normal "/t.xml" ∉ (Registry.letteredPaths count).map Path.normal :=
  Registry.normal_absolute_notMem (by decide) count

theorem nodup_crowd (count : Nat) : ((crowd count).map fun file => file.1.normal).Nodup := by
  rw [crowd, List.map_append, normals_nodes, List.map_singleton, ← List.concat_eq_append,
    List.nodup_concat]
  exact ⟨normal_notMem_lettered count, Registry.nodup_letteredPaths count⟩

/-- Files that may hold nodes add no trees. -/
theorem treesFound_of_nodes (w : Workspace) (d : Disk) (paths : List Path) :
    (w.indexFiles d (paths.map (·, .node))).2.treesFound = 0 := by
  induction paths using List.reverseRecOn with
  | nil => rfl
  | append_singleton paths p ih =>
    rw [List.map_append, List.map_singleton, indexFiles_concat, Task.collect]
    cases ((w.indexFiles d (paths.map (·, .node))).1.indexFile d p .node).2 with
    | error e => exact ih
    | ok count => exact ih

/-- With no number left for the last file, no tree is found. -/
theorem treesFound_crowd {count : Nat} (hfull : count = Registry.idCount) :
    ((Workspace.new lone (.defaults 1) "/").indexFiles lone (crowd count)).2.treesFound = 0 := by
  rw [crowd, indexFiles_concat, indexFile_of_full]
  · exact treesFound_of_nodes _ _ _
  · rw [normals_nodes]
    exact Registry.nodup_letteredPaths count
  · rw [List.length_map, Registry.length_letteredPaths, hfull]
  · rw [normals_nodes]
    exact normal_notMem_lettered count

/-- The last file may come first. Then the trees that it defines are counted. -/
theorem exists_run_last_first (d : Disk) (w : Workspace) (files : List (Path × Kind)) (p : Path)
    (kind : Kind) :
    ∃ s, Run d (start w (files ++ [(p, kind)])) s ∧ s.Complete ∧
      (Task.collect {} ⟨p, kind, .finished (w.indexFile d p kind).2⟩).treesFound ≤
        s.stats.treesFound := by
  have hfirst := run_indexFile d w {} (files.map fun file => ⟨file.1, file.2, .waiting⟩) [] p kind
  obtain ⟨s, hrun, hcomplete⟩ := exists_complete d (reached (w.indexFile d p kind).1
    (Task.collect {} ⟨p, kind, .finished (w.indexFile d p kind).2⟩)
    (files.map fun file => ⟨file.1, file.2, .waiting⟩) [] p kind .joined)
  refine ⟨s, ?_, hcomplete, hrun.treesFound_le⟩
  rw [start, List.map_append]
  exact hfirst.trans hrun

/-- One run takes the files one after the other, the other begins with the last one. -/
theorem not_agree_of_full {count : Nat} (hfull : count = Registry.idCount) : ∃ s s' : Scan,
    ((crowd count).map fun file => file.1.normal).Nodup ∧
      Run lone (start (.new lone (.defaults 1) "/") (crowd count)) s ∧ s.Complete ∧
      Run lone (start (.new lone (.defaults 1) "/") (crowd count)) s' ∧ s'.Complete ∧
      ¬ Agree s s' := by
  have hrefused := treesFound_crowd hfull
  obtain ⟨s', hrun', hcomplete', hfound⟩ := exists_run_last_first lone
    (.new lone (.defaults 1) "/") ((Registry.letteredPaths count).map (·, .node)) "/t.xml" .tree
  have hone : (Task.collect {} ⟨"/t.xml", .tree, .finished
      ((Workspace.new lone (.defaults 1) "/").indexFile lone "/t.xml" .tree).2⟩).treesFound = 1 := by
    decide +kernel
  refine ⟨_, s', nodup_crowd count, run_indexFiles lone _ (crowd count), complete_ended _ _ _,
    hrun', hcomplete', fun hagree => ?_⟩
  have hsame : ((Workspace.new lone (.defaults 1) "/").indexFiles lone (crowd count)).2.treesFound =
      s'.stats.treesFound := congrArg (fun counters => counters.2.2.1) hagree.counters
  omega

/-- **Refutation.** With one file more than there are numbers, two runs disagree. -/
theorem not_agree_crowd : ∃ s s' : Scan,
    ((crowd Registry.idCount).map fun file => file.1.normal).Nodup ∧
      Run lone (start (.new lone (.defaults 1) "/") (crowd Registry.idCount)) s ∧ s.Complete ∧
      Run lone (start (.new lone (.defaults 1) "/") (crowd Registry.idCount)) s' ∧ s'.Complete ∧
      ¬ Agree s s' := not_agree_of_full rfl

end Scan

end BehaviorIndex
