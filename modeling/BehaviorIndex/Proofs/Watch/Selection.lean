import BehaviorIndex.Proofs.Files.Selection
import BehaviorIndex.Proofs.Watch.Quiescence
import BehaviorIndex.Proofs.Workspace.Located
import BehaviorIndex.Watch.Watcher

/-!
# Which files are kept live

All files below the root are indexed by a walk, and from then on the index follows the events of a
watcher. The walk obeys ignore rules, but the watcher does not ask for them, and neither does the
loop.

**Theorem (`Loop.selection_of_quiescent`).** When nothing waits, no timer is pending and nothing is
on its way, and each change of a file has been followed by its event, then a file with a location in
the index is a candidate on the current disk, of the kind of that location (`Walk.Candidate`): it is
there, below the root, not hidden, and has an extension of the kind. If an ignore rule excludes it,
it is one that some event was about. So it is as long as not all numbers of files are given out.

So the index can hold files that no walk lists, and `Loop.exists_excluded` is a run in which it
does: an ignored file comes in with the event of its creation.

The invariant (`Tended`) is that a file with a location *awaits* nothing or something (`Awaits`): it
can be read, or an event about it is in the queue or still to come, or it is going to be indexed
again. Indexing a file leaves it with a location only if it can be read; a change of the disk that
makes it unreadable is followed by an event; and handling that event removes the locations, or makes
the file outstanding.
-/

namespace BehaviorIndex

theorem Disk.Below.eq_of_normal_eq {root p q : Path} (hp : Below root p) (hq : Below root q)
    (h : p.normal = q.normal) : p = q := by
  obtain ⟨names, hnames, rfl⟩ := hp
  obtain ⟨more, hmore, rfl⟩ := hq
  exact Disk.eq_of_normal_eq hnames hmore h

theorem Disk.content?_congr {d d' : Disk} {p : Path}
    (h : (d.readBytes p).toOption = (d'.readBytes p).toOption) : d.content? p = d'.content? p := by
  rw [content?, content?, read, read]
  cases hd : d.readBytes p <;> cases hd' : d'.readBytes p <;>
    simp only [hd, hd', Except.toOption, reduceCtorEq, Option.some.injEq] at h ⊢
  rw [h]

theorem Disk.isFile_of_content? {d : Disk} {p : Path} (h : (d.content? p).isSome) :
    d.isFile p = true := by
  rw [content?, read, readBytes] at h
  rw [isFile, entry?]
  cases hresolve : d.resolve p with
  | error fault => simp [hresolve, Except.toOption] at h
  | ok q =>
    simp only [hresolve] at h
    simp only [Except.toOption, Option.bind_some]
    cases hentry : d.at? q with
    | none => simp [hentry, Except.toOption] at h
    | some entry => cases entry <;> simp [hentry, Except.toOption] at h ⊢

namespace Workspace

section

variable {w : Workspace} {C : Path → Prop} {P P' : Kind → Path → Prop}

/-- Handling an event brings no locations, and removes those of a deleted file. -/
theorem Located.handle (h : w.Located P) (hw : w.Sound)
    (hroom : w.registry.size < Registry.idCount) {e : Watch.Event}
    (hold : ∀ k q, P k q → e ≠ .deleted q → P' k q) : (w.handle e).Located P' := by
  cases e with
  | created p | changed p =>
    have hsame : w.Located P' := h.mono fun k q hq => hold k q hq (by simp)
    rw [Workspace.handle]
    split
    · exact hsame
    · exact hsame
  | deleted p =>
    refine h.removeFile hw hroom fun k q hq hne => hold k q hq ?_
    intro heq
    cases heq
    exact hne rfl

theorem Located.reindex (h : w.Located P) (hw : w.Sound) {d : Disk} {p : Path}
    (hregistered : w.Registered C) (hp : C p) (hinj : ∀ q, C q → q.normal = p.normal → q = p)
    (hroom : (w.reindex d p).1.registry.size < Registry.idCount)
    (hnew : ∀ kind, w.settings.indexing.kindOf? p = some kind → (d.content? p).isSome → P' kind p)
    (hold : ∀ k q, C q → P k q → (q = p → w.settings.indexing.kindOf? p ≠ some k) → P' k q) :
    (w.reindex d p).1.Located P' := by
  obtain ⟨hnone, hsame⟩ | ⟨kind, hkind, hindexed⟩ := w.reindex_cases d p
  · rw [hsame]
    intro k name place hplace
    obtain ⟨q, hpath, hq⟩ := h k name place hplace
    exact ⟨q, hpath, hold k q (hregistered _ q hpath) hq fun _ => by simp [hnone]⟩
  · rw [hindexed] at hroom ⊢
    refine h.indexFile hw hregistered hp hinj hroom (hnew kind hkind) fun k q hC hq hne => ?_
    refine hold k q hC hq fun heq hk => hne heq ?_
    rw [hkind] at hk
    exact (Option.some_inj.mp hk).symm

theorem Registered.reindex (h : w.Registered C) {p : Path} (hp : C p) (d : Disk) :
    (w.reindex d p).1.Registered C := by
  obtain ⟨-, hsame⟩ | ⟨kind, -, hindexed⟩ := w.reindex_cases d p
  · rwa [hsame]
  · rw [hindexed]
    exact h.indexFile hp d kind

/-- An event about a file that can hold definitions starts its timer, unless the file was deleted.
-/
theorem isSome_pending?_handle {e : Watch.Event}
    (hkind : (w.settings.indexing.kindOf? e.path).isSome) (hne : e ≠ .deleted e.path) :
    ((w.handle e).clock.table.pending? e.path.normal).isSome := by
  obtain ⟨hnone, -⟩ | hw | ⟨he, -⟩ := w.handle_cases e
  · simp [hnone] at hkind
  · rw [hw, Timer.Clock.table_schedule, Timer.Table.pending?_schedule, if_pos rfl]
    rfl
  · exact absurd he hne

/-- What indexing each of some files preserves, indexing them all preserves. -/
theorem indexFiles_preserves {I : Workspace → Prop} {d : Disk} {files : List (Path × Kind)}
    (hstep : ∀ w, ∀ file ∈ files, I w → I (w.indexFile d file.1 file.2).1) (hw : I w) :
    I (w.indexFiles d files).1 := by
  rw [indexFiles]
  generalize ({} : Statistics) = stats
  induction files generalizing w stats with
  | nil => exact hw
  | cons file files ih =>
    obtain ⟨p, kind⟩ := file
    have hnext := hstep w (p, kind) List.mem_cons_self hw
    have hrest := fun w f hf => hstep w f (List.mem_cons_of_mem _ hf)
    rcases hindexed : w.indexFile d p kind with ⟨w', count | fault⟩ <;>
      rw [hindexed] at hnext <;>
      simp only [List.foldl_cons, hindexed] <;>
      exact ih hrest hnext _

end

end Workspace

namespace Watch

/-- The paths of the notice are below the root. -/
def Notice.Below (root : Path) (n : Notice) : Prop := ∀ p ∈ n.paths, Disk.Below root p

theorem Notice.path_mem_of_mem_allEvents {n : Notice} {e : Event} (h : e ∈ n.allEvents) :
    e.path ∈ n.paths := by
  unfold allEvents at h
  split at h
  case h_5 =>
    split at h
    · next old new hpaths =>
      rw [hpaths]
      rcases List.mem_pair.mp h with rfl | rfl
      · exact List.mem_cons_self
      · exact List.mem_cons_of_mem _ List.mem_cons_self
    · cases h
  case h_7 => cases h
  all_goals
    obtain ⟨p, hp, rfl⟩ := List.mem_map.mp h
    exact hp

theorem Notice.mem_events_iff {indexing : Settings.Indexing} {n : Notice} {e : Event} :
    e ∈ n.events indexing ↔
      e ∈ n.allEvents ∧ (indexing.kindOf? e.path).isSome ∧ e.path.isHidden = false := by
  simp [events]

namespace Loop

/-- The state in which a run begins: the files below the directory have been indexed. -/
def initial (d : Disk) (settings : Settings) (directory : Path) : Loop where
  disk := d
  workspace := ((Workspace.new d settings directory).indexAll d).1

/-- Every event of the run is one that the watcher of `root` makes of a notice. -/
def Told (indexing : Settings.Indexing) (root : Path) (ls : List Label) : Prop :=
  ∀ e, .enqueue e ∈ ls → ∃ n : Notice, n.Below root ∧ e ∈ n.events indexing

/-- Every change of a file below the root is followed by a notice about it: the events that the
watcher makes of the notice all come in later. -/
def Reported (indexing : Settings.Indexing) (root : Path) : Disk → List Label → Prop
  | _, [] => True
  | d, .change d' :: ls =>
    (∀ p, Disk.Below root p → (d.readBytes p).toOption ≠ (d'.readBytes p).toOption →
      ∃ n : Notice, (∃ e ∈ n.allEvents, e.path = p) ∧
        ∀ e ∈ n.events indexing, .enqueue e ∈ ls) ∧
    Reported indexing root d' ls
  | d, _ :: ls => Reported indexing root d ls

/-- A path that events may be about. -/
structure Target (indexing : Settings.Indexing) (root : Path) (ls : List Label) (p : Path) :
    Prop where
  below : Disk.Below root p
  visible : p.isHidden = false
  kind : (indexing.kindOf? p).isSome
  writes : Writes ls p

theorem Told.target {indexing : Settings.Indexing} {root : Path} {ls : List Label}
    (h : Told indexing root ls) {e : Event} (he : .enqueue e ∈ ls) :
    Target indexing root ls e.path := by
  obtain ⟨n, hbelow, hevent⟩ := h e he
  obtain ⟨hall, hkind, hvisible⟩ := Notice.mem_events_iff.mp hevent
  exact ⟨hbelow _ (Notice.path_mem_of_mem_allEvents hall), hvisible, hkind, e, he, rfl⟩

/-- A path whose locations may be in the index: the rules of `start` admit it, or an event was about
it. -/
structure Kept (indexing : Settings.Indexing) (root : Path) (start : Disk) (ls : List Label)
    (kind : Kind) (p : Path) : Prop where
  below : Disk.Below root p
  visible : p.isHidden = false
  kind : indexing.kindOf? p = some kind
  origin : Walk.isExcluded start root p = true → Writes ls p

/-- The path can be read, or something is going to happen to it; `ls` is what is still to come. -/
inductive Awaits (s : Loop) (ls : List Label) (p : Path) : Prop
  | nothing (h : (s.disk.content? p).isSome)
  | handling (e : Event) (he : e ∈ s.events) (hp : e.path = p)
  | indexing (h : s.Outstanding p.normal)
  | event (h : Writes ls p)

/-- The invariant of a run: `all` are the labels of the whole run, and `ls` those still to come. -/
structure Tended (indexing : Settings.Indexing) (root : Path) (start : Disk) (all : List Label)
    (s : Loop) (ls : List Label) : Prop where
  indexing_eq : s.workspace.settings.indexing = indexing
  sound : s.workspace.Sound
  inFlight : s.InFlight (Target indexing root all)
  registered : s.workspace.Registered (Disk.Below root)
  located : s.workspace.registry.size < Registry.idCount →
    s.workspace.Located fun kind p => Kept indexing root start all kind p ∧ s.Awaits ls p

section

variable {indexing : Settings.Indexing} {root : Path} {start : Disk} {all ls : List Label}
  {s s' : Loop} {l : Label} {p : Path}

/-- What a path awaits, it still awaits after a step, unless the step indexes it or handles an event
about it. -/
theorem Awaits.step (hp : s.Awaits (l :: ls) p) (h : Step s l s') (hbelow : Disk.Below root p)
    (hflight : s.InFlight (Target indexing root all)) (hindexes : ¬ s.Indexes l p.normal)
    (hhandles : ∀ e rest, l = .handle → s.events = e :: rest → e.path ≠ p)
    (hchange : ∀ d, l = .change d → (s.disk.content? p).isSome →
      (d.content? p).isSome ∨ Writes ls p) : s'.Awaits ls p := by
  have hqueue : ∀ e ∈ s.events, e.path = p → s'.Awaits ls p := by
    intro e he hep
    cases h with
    | enqueue e' => exact .handling e (List.mem_append_left _ he) hep
    | @handle e' rest hevents =>
      rcases List.mem_cons.mp (hevents ▸ he) with rfl | hrest
      · exact absurd hep (hhandles e rest rfl hevents)
      · exact .handling e hrest hep
    | _ => exact .handling e he hep
  cases hp with
  | nothing hcontent =>
    cases h with
    | change d =>
      rcases hchange d rfl hcontent with hcontent | hwrites
      · exact .nothing hcontent
      · exact .event hwrites
    | _ => exact .nothing hcontent
  | handling e he hep => exact hqueue e he hep
  | indexing houtstanding =>
    by_cases hevents : ∃ e ∈ s.events, e.path = p
    · obtain ⟨e, he, hep⟩ := hevents
      exact hqueue e he hep
    · refine .indexing (houtstanding.step h (fun t ht => (hflight.timers t ht).1) ?_ hindexes)
      intro e he hnormal
      exact hevents ⟨e, he, (hflight.events e he).below.eq_of_normal_eq hbelow hnormal⟩
  | event hwrites =>
    obtain ⟨e, he, hep⟩ := hwrites
    rcases List.mem_cons.mp he with rfl | he
    · cases h with
      | enqueue => exact .handling e (List.mem_append_right _ List.mem_cons_self) hep
    · exact .event ⟨e, he, hep⟩

theorem Reported.step (hreported : Reported indexing root s.disk (l :: ls)) (h : Step s l s') :
    Reported indexing root s'.disk ls := by
  cases h with
  | change d => exact hreported.2
  | _ => exact hreported

/-- A change that makes a file unreadable is followed by an event about it. -/
theorem Reported.change {d : Disk} (hreported : Reported indexing root s.disk (.change d :: ls))
    (hbelow : Disk.Below root p) (hvisible : p.isHidden = false)
    (hkind : (indexing.kindOf? p).isSome) (hcontent : (s.disk.content? p).isSome) :
    (d.content? p).isSome ∨ Writes ls p := by
  by_cases hsame : (s.disk.readBytes p).toOption = (d.readBytes p).toOption
  · left
    rwa [← Disk.content?_congr hsame]
  · right
    obtain ⟨n, ⟨e, he, hep⟩, hevents⟩ := hreported.1 p hbelow hsame
    refine ⟨e, hevents e (Notice.mem_events_iff.mpr ⟨he, ?_, ?_⟩), hep⟩
    · rwa [hep]
    · rwa [hep]

/-- What holds of a path with a location holds of it after a step, unless the step indexes the path
or handles an event about it. -/
theorem Tended.keep (hs : Tended indexing root start all s (l :: ls)) (h : Step s l s')
    (hreported : Reported indexing root s.disk (l :: ls)) {kind : Kind}
    (hp : Kept indexing root start all kind p ∧ s.Awaits (l :: ls) p)
    (hindexes : ¬ s.Indexes l p.normal)
    (hhandles : ∀ e rest, l = .handle → s.events = e :: rest → e.path ≠ p) :
    Kept indexing root start all kind p ∧ s'.Awaits ls p := by
  obtain ⟨hkept, hawaits⟩ := hp
  refine ⟨hkept, hawaits.step h hkept.below hs.inFlight hindexes hhandles ?_⟩
  rintro d rfl hcontent
  exact hreported.change hkept.below hkept.visible (by simp [hkept.kind]) hcontent

theorem Tended.registered_step (hs : Tended indexing root start all s (l :: ls))
    (h : Step s l s') : s'.workspace.Registered (Disk.Below root) := by
  cases h with
  | handle =>
    intro id p hp
    rw [Workspace.registry_handle] at hp
    exact hs.registered id p hp
  | @execute q rest hq =>
    exact hs.registered.reindex (hs.inFlight.commands q (hq ▸ List.mem_cons_self)).below s.disk
  | _ => exact hs.registered

/-- **One step.** -/
theorem Tended.step (hs : Tended indexing root start all s (l :: ls)) (h : Step s l s')
    (htarget : ∀ e, l = .enqueue e → Target indexing root all e.path)
    (hreported : Reported indexing root s.disk (l :: ls)) :
    Tended indexing root start all s' ls := by
  refine ⟨by rw [h.settings, hs.indexing_eq], h.sound hs.sound, h.inFlight htarget hs.inFlight,
    hs.registered_step h, fun hroom => ?_⟩
  have hbefore := Nat.lt_of_le_of_lt h.size_le hroom
  have hlocated := hs.located hbefore
  have hkeep := fun kind p => @Tended.keep indexing root start all ls s s' l p hs h hreported kind
  cases h with
  | @handle e rest he =>
    have htargeted := hs.inFlight.events e (he ▸ List.mem_cons_self)
    refine hlocated.handle hs.sound hbefore fun kind p hp hne => ?_
    by_cases hep : e.path = p
    · -- The file is indexed again after its timer has run out.
      refine ⟨hp.1, .indexing (.inl ?_)⟩
      rw [← hep] at hne ⊢
      exact Workspace.isSome_pending?_handle (by rw [hs.indexing_eq]; exact htargeted.kind) hne
    · refine hkeep kind p hp (by rintro ⟨_, _, ⟨⟩, _⟩) fun e' rest' _ he' => ?_
      rw [he] at he'
      rwa [← (List.cons.inj he').1]
  | @execute q rest hq =>
    have htargeted := hs.inFlight.commands q (hq ▸ List.mem_cons_self)
    refine hlocated.reindex hs.sound hs.registered htargeted.below
      (fun p hp hnormal => hp.eq_of_normal_eq htargeted.below hnormal) hroom ?_ ?_
    · intro kind hkind hcontent
      rw [hs.indexing_eq] at hkind
      exact ⟨⟨htargeted.below, htargeted.visible, hkind, fun _ => htargeted.writes⟩,
        .nothing hcontent⟩
    · intro kind p hbelow hp hne
      rw [hs.indexing_eq] at hne
      refine hkeep kind p hp ?_ (by rintro _ _ ⟨⟩)
      rintro ⟨q', rest', -, hq', hnormal⟩
      obtain ⟨rfl, -⟩ := List.cons.inj (hq.symm.trans hq')
      have heq := hbelow.eq_of_normal_eq htargeted.below hnormal.symm
      exact hne heq (heq ▸ hp.1.kind)
  | _ =>
    refine hlocated.mono fun kind p hp => hkeep kind p hp ?_ ?_
    · rintro ⟨_, _, ⟨⟩, _⟩
    · rintro _ _ ⟨⟩

/-- **A run.** -/
theorem Tended.run (h : Run s ls s') (hs : Tended indexing root start all s ls)
    (htold : ∀ e, .enqueue e ∈ ls → Target indexing root all e.path)
    (hreported : Reported indexing root s.disk ls) : Tended indexing root start all s' [] := by
  induction h with
  | nil s => exact hs
  | cons head tail ih =>
    refine ih (hs.step head ?_ hreported) ?_ (hreported.step head)
    · rintro e rfl
      exact htold e List.mem_cons_self
    · exact fun e he => htold e (List.mem_cons_of_mem _ he)

/-- In a quiescent state a path that nothing more happens to awaits nothing. -/
theorem Awaits.content (hp : s.Awaits [] p) (h : s.Quiescent) : (s.disk.content? p).isSome := by
  cases hp with
  | nothing hcontent => exact hcontent
  | handling e he => simp [h.events] at he
  | indexing houtstanding => exact absurd houtstanding (h.not_outstanding _)
  | event hwrites =>
    obtain ⟨e, he, -⟩ := hwrites
    cases he

/-- A workspace whose watcher has started has a canonical root. -/
theorem exists_root_of_start {d : Disk} {settings : Settings} {directory : Path} {watcher : Watcher}
    (h : Watcher.start d (Workspace.new d settings directory).root = .ok watcher) :
    watcher.root = (Workspace.new d settings directory).root ∧
      ∃ names, Path.Plain names ∧ watcher.root = Disk.pathOf names := by
  rw [Watcher.start] at h
  split at h
  · next hthere =>
    cases h
    refine ⟨rfl, ?_⟩
    show ∃ names, Path.Plain names ∧ d.canonical directory = Disk.pathOf names
    cases hresolve : d.resolve directory with
    | ok root =>
      rw [Disk.canonical, hresolve]
      exact Disk.exists_pathOf_of_resolve hresolve
    | error fault =>
      -- The root is as it was given, and nothing is there.
      have hroot : (Workspace.new d settings directory).root = directory := by
        show d.canonical directory = directory
        rw [Disk.canonical, hresolve]
        rfl
      rw [hroot, Disk.isThere, Disk.entry?, hresolve] at hthere
      cases hthere
  · cases h

/-- What holds while the files that a walk lists are being indexed. -/
structure Scanned (d : Disk) (settings : Settings) (root : Path) (all : List Label)
    (w : Workspace) : Prop where
  settings_eq : w.settings = settings
  clock_eq : w.clock = {}
  sound : w.Sound
  registered : w.Registered (Disk.Below root)
  located : w.registry.size < Registry.idCount → w.Located fun kind p =>
    Kept settings.indexing root d all kind p ∧ (d.content? p).isSome

theorem scanned_new (d : Disk) (settings : Settings) (directory root : Path) (all : List Label) :
    Scanned d settings root all (.new d settings directory) where
  settings_eq := rfl
  clock_eq := rfl
  sound := (Workspace.Reachable.new _ _ _).sound
  registered id p hp := by simp [Workspace.new, Registry.path?] at hp
  located _ kind name place hplace := by
    cases kind <;> simp [Workspace.new, Store.lookup, Store.table, Table.lookup] at hplace

theorem Scanned.indexFile {d : Disk} {settings : Settings} {w : Workspace} {kind : Kind}
    (h : Scanned d settings root all w)
    (hcandidate : Walk.Candidate d settings.indexing root kind p)
    (hadmitted : Walk.isExcluded d root p = false) :
    Scanned d settings root all (w.indexFile d p kind).1 where
  settings_eq := by rw [Workspace.settings_indexFile, h.settings_eq]
  clock_eq := by rw [Workspace.clock_indexFile, h.clock_eq]
  sound := h.sound.indexFile d p kind
  registered := h.registered.indexFile hcandidate.below d kind
  located hroom := by
    have hbefore : w.registry.size < Registry.idCount := by
      refine Nat.lt_of_le_of_lt ?_ hroom
      rw [Workspace.registry_indexFile]
      exact w.registry.size_le_size_register p
    refine (h.located hbefore).indexFile h.sound h.registered hcandidate.below
      (fun q hq hnormal => hq.eq_of_normal_eq hcandidate.below hnormal) hroom ?_ ?_
    · intro hcontent
      refine ⟨⟨hcandidate.below, hcandidate.visible, hcandidate.kind, ?_⟩, hcontent⟩
      intro hexcluded
      rw [hadmitted] at hexcluded
      cases hexcluded
    · exact fun k q _ hq _ => hq

/-- The invariant holds when the files of the walk have been indexed. -/
theorem tended_indexAll {d : Disk} {settings : Settings} {directory : Path} {names : List String}
    (hnames : Path.Plain names)
    (hroot : (Workspace.new d settings directory).root = Disk.pathOf names) :
    Tended settings.indexing (Disk.pathOf names) d all (initial d settings directory) ls := by
  have hscanned : Scanned d settings (Disk.pathOf names) all
      ((Workspace.new d settings directory).indexAll d).1 := by
    rw [Workspace.indexAll, hroot]
    refine Workspace.indexFiles_preserves ?_ (scanned_new d settings directory _ all)
    intro w file hfile hw
    obtain ⟨hcandidate, hadmitted⟩ := (Walk.mem_walk_iff hnames).mp hfile
    exact hw.indexFile hcandidate hadmitted
  rw [initial]
  refine ⟨by rw [hscanned.settings_eq], hscanned.sound, ?_, hscanned.registered, fun hroom => ?_⟩
  · exact ⟨by simp, by simp [timers, hscanned.clock_eq], by simp, by simp⟩
  · exact (hscanned.located hroom).mono fun kind p hp => ⟨hp.1, .nothing hp.2⟩

end

/-- **Which files are kept live.** In every quiescent state in which each change of a file has been
followed by its event, a file with a location is a candidate on the current disk, of the kind of
that location, and if an ignore rule excludes it, an event was about it; or all numbers are given
out. -/
theorem selection_of_quiescent {d : Disk} {settings : Settings} {directory : Path}
    {watcher : Watcher}
    (hstart : Watcher.start d (Workspace.new d settings directory).root = .ok watcher)
    {ls : List Label} {s : Loop}
    (hrun : Run (initial d settings directory) ls s)
    (htold : Told settings.indexing watcher.root ls)
    (hreported : Reported settings.indexing watcher.root d ls)
    (hrules : ∀ d', .change d' ∈ ls → Walk.SameRules d d') (hquiet : s.Quiescent)
    {kind : Kind} {name : String} {place : Location}
    (hplace : place ∈ s.workspace.store.lookup kind name) :
    (∃ p, s.workspace.registry.path? place.file = some p ∧
      Walk.Candidate s.disk settings.indexing watcher.root kind p ∧
      (Walk.isExcluded s.disk watcher.root p = true → Writes ls p)) ∨
    s.workspace.registry.Full := by
  obtain ⟨hroot, names, hnames, hcanonical⟩ := exists_root_of_start hstart
  rw [hcanonical] at htold hreported ⊢
  have htended := Tended.run hrun (tended_indexAll hnames (hroot.symm.trans hcanonical))
    (fun e he => htold.target he) hreported
  have hsame : Walk.SameRules d s.disk := by
    refine hrun.preserves (I := fun s => Walk.SameRules d s.disk) ?_ fun _ _ => rfl
    intro s s' l hl hstep hs
    cases hstep with
    | change d' => exact hrules d' hl
    | _ => exact hs
  rcases Nat.lt_or_ge s.workspace.registry.size Registry.idCount with hroom | hfull
  swap
  · exact .inr hfull
  obtain ⟨p, hpath, hkept, hawaits⟩ := htended.located hroom kind name place hplace
  have hcandidate : Walk.Candidate s.disk settings.indexing (Disk.pathOf names) kind p :=
    ⟨hkept.below, Disk.isFile_of_content? (hawaits.content hquiet), hkept.visible, hkept.kind⟩
  refine .inl ⟨p, hpath, hcandidate, fun hexcluded => hkept.origin ?_⟩
  rwa [hsame.isExcluded hkept.below] at hexcluded

/-! ## A file that only an event brings in -/

/-- A disk with an ignore rule. -/
def fallow : Disk := ⟨.ofList [("/.gitignore", Disk.Entry.file "wild.xml".toUTF8)], "/"⟩

/-- The disk with the file that the rule is about. -/
def overgrown : Disk :=
  { fallow with
    entries := fallow.entries.insert "/wild.xml" (.file "<BehaviorTree ID='A'/>".toUTF8) }

/-- The file is created, and the event of its creation has it indexed. -/
def growth : List Label :=
  [.change overgrown, .enqueue (.created "/wild.xml"), .handle,
    .claim ⟨"/wild.xml", 1, 200, "/wild.xml"⟩, .deliver "/wild.xml", .execute]

theorem plain_wild : Path.Plain ["wild.xml"] := by
  simp only [Path.Plain, Path.IsName]
  decide

theorem told_growth : Told (.defaults 1) "/" growth := by
  intro e he
  have hcreated : e = .created "/wild.xml" := by simpa [growth] using he
  subst hcreated
  refine ⟨⟨.create, ["/wild.xml"]⟩, fun p hp => ?_, by decide⟩
  rw [List.mem_singleton.mp hp]
  exact ⟨["wild.xml"], plain_wild, by decide⟩

theorem at?_fallow : fallow.at? "/wild.xml" ≠ some .directory := by
  have hnone : fallow.at? "/wild.xml" = none := rfl
  simp [hnone]

theorem reported_growth : Reported (.defaults 1) "/" fallow growth := by
  refine ⟨?_, trivial⟩
  rintro p ⟨names, hnames, rfl⟩ hdiffers
  have hwild : Disk.pathOf (Path.names "/" ++ names) = "/wild.xml" := by
    by_contra hne
    exact hdiffers (Disk.readBytes_insert_file_of_ne at?_fallow hnames hne).symm
  rw [hwild]
  refine ⟨⟨.create, ["/wild.xml"]⟩, ⟨_, List.mem_cons_self, rfl⟩, fun e he => ?_⟩
  have hcreated : e = .created "/wild.xml" :=
    List.mem_singleton.mp (Notice.mem_events_iff.mp he).1
  rw [hcreated]
  exact List.mem_cons_self

theorem sameRules_overgrown : Walk.SameRules fallow overgrown := by
  refine Walk.sameRules_insert_file at?_fallow (fun names hnames source hsource heq => ?_) _
  obtain ⟨hplain, hjoin⟩ := Walk.join_source hnames hsource
  obtain ⟨-, hne, -⟩ := Walk.plain_source source hsource
  obtain ⟨name, hname⟩ := List.exists_mem_of_ne_nil _ hne
  have hwild : name = "wild.xml" := by
    have hpath : Disk.pathOf (names ++ source.names) = Disk.pathOf ["wild.xml"] :=
      hjoin.symm.trans heq
    have hmem := List.mem_append_right names hname
    rw [(Disk.pathOf_inj hplain plain_wild).mp hpath] at hmem
    exact List.mem_singleton.mp hmem
  have hsources : ∀ source ∈ Walk.sources, "wild.xml" ∉ Path.names source := by decide
  exact hsources source hsource (hwild ▸ hname)

theorem sameRules_growth : ∀ d', .change d' ∈ growth → Walk.SameRules fallow d' := by
  intro d' hd'
  have hovergrown : d' = overgrown := by simpa [growth] using hd'
  rw [hovergrown]
  exact sameRules_overgrown

/-- The walk lists no file, and the events bring one in. -/
theorem exists_run_growth :
    ∃ s, Run (initial fallow (.defaults 1) "/") growth s ∧ s.disk = overgrown ∧
      s.workspace.registry.size < Registry.idCount ∧ s.Quiescent ∧
      ⟨⟨1⟩, 0, 0⟩ ∈ s.workspace.store.lookup .tree "A" ∧
      s.workspace.registry.path? ⟨1⟩ = some "/wild.xml" := by
  have hscan : ((Workspace.new fallow (.defaults 1) "/").indexAll fallow).1 =
      .new fallow (.defaults 1) "/" := by
    have hwalk : Walk.walk fallow (Workspace.new fallow (.defaults 1) "/").settings.indexing
        (Workspace.new fallow (.defaults 1) "/").root = [] := by decide +kernel
    rw [Workspace.indexAll, hwalk]
    rfl
  rw [initial, hscan]
  refine ⟨_, .cons (.change _ _) (.cons (.enqueue _ _) (.cons (.handle rfl)
    (.cons (@Step.claim _ _ ⟨[], 1⟩ ?_ ?_) (.cons (.deliver ?_) (.cons (.execute rfl)
      (.nil _)))))), rfl, ?_, ?_, ?_, ?_⟩
  · exact List.mem_cons_self
  · rfl
  · exact List.mem_cons_self
  · exact Nat.lt_of_le_of_lt (Workspace.size_reindex_le _ _ _) (by decide)
  · exact ⟨rfl, rfl, rfl, rfl⟩
  · decide +kernel
  · decide +kernel

theorem selection_of_growth :
    ∃ s, Run (initial fallow (.defaults 1) "/") growth s ∧ s.Quiescent ∧
      ⟨⟨1⟩, 0, 0⟩ ∈ s.workspace.store.lookup .tree "A" ∧
      s.workspace.registry.path? ⟨1⟩ = some "/wild.xml" ∧
      Walk.Candidate s.disk (.defaults 1) "/" .tree "/wild.xml" ∧
      Walk.isExcluded s.disk "/" "/wild.xml" = true ∧ Writes growth "/wild.xml" := by
  obtain ⟨s, hrun, hdisk, hroom, hquiet, hplace, hpath⟩ := exists_run_growth
  have hstart : Watcher.start fallow (Workspace.new fallow (.defaults 1) "/").root =
      .ok ⟨"/"⟩ := rfl
  have hexcluded : Walk.isExcluded s.disk "/" "/wild.xml" = true := by
    rw [hdisk]
    decide +kernel
  obtain ⟨p, hp, hcandidate, horigin⟩ := (selection_of_quiescent hstart hrun told_growth
    reported_growth sameRules_growth hquiet hplace).resolve_right (Nat.not_le.mpr hroom)
  obtain rfl : "/wild.xml" = p := Option.some.inj (hpath.symm.trans hp)
  exact ⟨s, hrun, hquiet, hplace, hpath, hcandidate, hexcluded, horigin hexcluded⟩

/-- The index of a quiescent state can hold a file that a walk does not list. -/
theorem exists_excluded :
    ∃ s place, Run (initial fallow (.defaults 1) "/") growth s ∧
      Told (.defaults 1) "/" growth ∧ Reported (.defaults 1) "/" fallow growth ∧
      (∀ d', .change d' ∈ growth → Walk.SameRules fallow d') ∧ s.Quiescent ∧
      place ∈ s.workspace.store.lookup .tree "A" ∧
      s.workspace.registry.path? place.file = some "/wild.xml" ∧
      ∀ kind, ("/wild.xml", kind) ∉ Walk.walk s.disk (.defaults 1) "/" := by
  obtain ⟨s, hrun, hdisk, -, hquiet, hplace, hpath⟩ := exists_run_growth
  have hwalk : Walk.walk overgrown (.defaults 1) "/" = [] := by decide +kernel
  refine ⟨s, _, hrun, told_growth, reported_growth, sameRules_growth, hquiet, hplace, hpath, ?_⟩
  rw [hdisk, hwalk]
  exact fun kind => List.not_mem_nil

end Loop

end Watch

end BehaviorIndex
