import BehaviorIndex.Proofs.Timer.Table
import BehaviorIndex.Proofs.Workspace.Indexed
import BehaviorIndex.Workspace.Live

/-!
# The indexer loop

Events wait in a queue until the loop handles them. Handling an event can start a timer, and a timer
that runs out claims its slot in the timer table; if the slot is still its own, its action starts.
The action delivers a command to index a path again, and the loop executes the commands in the order
they came. Meanwhile the disk changes, and more events come in.

`Step` is one of these steps, and a `Run` is any number of them in any order. No step waits for a
deadline: a timer may run out as early or as late as it likes, and a timer that was replaced or
cancelled may still try to claim its slot. So each timing of the timers is some run.
-/

namespace BehaviorIndex

namespace Workspace

/-- The cases of `handle`: an event about a file of no kind, a timer, a removal. -/
theorem handle_cases (w : Workspace) (e : Watch.Event) :
    (w.settings.indexing.kindOf? e.path = none ∧ w.handle e = w) ∨
    w.handle e = { w with
      clock := w.clock.schedule e.path.normal w.settings.fileWatch.debounceMs e.path } ∨
    (e = .deleted e.path ∧ w.handle e = (w.removeFile e.path).1) := by
  cases e with
  | created p | changed p =>
    cases h : w.settings.indexing.kindOf? p with
    | none => exact .inl ⟨h, if_neg (by simp [h])⟩
    | some kind => exact .inr (.inl (if_pos (by simp [h])))
  | deleted p => exact .inr (.inr ⟨rfl, rfl⟩)

/-- The cases of `reindex`: a file of no kind, a file of some kind. -/
theorem reindex_cases (w : Workspace) (d : Disk) (p : Path) :
    (w.settings.indexing.kindOf? p = none ∧ (w.reindex d p).1 = w) ∨
    ∃ kind, w.settings.indexing.kindOf? p = some kind ∧
      (w.reindex d p).1 = (w.indexFile d p kind).1 := by
  unfold reindex
  cases w.settings.indexing.kindOf? p with
  | none => exact .inl ⟨rfl, rfl⟩
  | some kind => exact .inr ⟨kind, rfl, rfl⟩

theorem settings_handle (w : Workspace) (e : Watch.Event) : (w.handle e).settings = w.settings := by
  obtain ⟨-, h⟩ | h | ⟨-, h⟩ := w.handle_cases e <;> rw [h]
  exact w.settings_removeFile e.path

theorem registry_handle (w : Workspace) (e : Watch.Event) : (w.handle e).registry = w.registry := by
  obtain ⟨-, h⟩ | h | ⟨-, h⟩ := w.handle_cases e <;> rw [h]
  exact w.registry_removeFile e.path

theorem Sound.handle {w : Workspace} (hw : w.Sound) (e : Watch.Event) : (w.handle e).Sound := by
  obtain ⟨-, h⟩ | h | ⟨-, h⟩ := w.handle_cases e <;> rw [h]
  · exact hw
  · exact ⟨hw.registry, hw.store⟩
  · exact hw.removeFile e.path

theorem settings_reindex (w : Workspace) (d : Disk) (p : Path) :
    (w.reindex d p).1.settings = w.settings := by
  obtain ⟨-, h⟩ | ⟨kind, -, h⟩ := w.reindex_cases d p <;> rw [h]
  exact w.settings_indexFile d p kind

theorem clock_reindex (w : Workspace) (d : Disk) (p : Path) :
    (w.reindex d p).1.clock = w.clock := by
  obtain ⟨-, h⟩ | ⟨kind, -, h⟩ := w.reindex_cases d p <;> rw [h]
  exact w.clock_indexFile d p kind

theorem registry_reindex {w : Workspace} {d : Disk} {p : Path}
    (h : (w.settings.indexing.kindOf? p).isSome) :
    (w.reindex d p).1.registry = (w.registry.register p).1 := by
  obtain ⟨hnone, -⟩ | ⟨kind, -, hw⟩ := w.reindex_cases d p
  · rw [hnone] at h
    cases h
  · rw [hw, registry_indexFile]

theorem size_le_size_reindex (w : Workspace) (d : Disk) (p : Path) :
    w.registry.size ≤ (w.reindex d p).1.registry.size := by
  obtain ⟨-, h⟩ | ⟨kind, -, h⟩ := w.reindex_cases d p <;> rw [h]
  rw [registry_indexFile]
  exact w.registry.size_le_size_register p

theorem size_reindex_le (w : Workspace) (d : Disk) (p : Path) :
    (w.reindex d p).1.registry.size ≤ w.registry.size + 1 := by
  obtain ⟨-, h⟩ | ⟨kind, -, h⟩ := w.reindex_cases d p <;> rw [h]
  · exact Nat.le_succ _
  · rw [registry_indexFile]
    exact w.registry.size_register_le p

theorem Sound.reindex {w : Workspace} (hw : w.Sound) (d : Disk) (p : Path) :
    (w.reindex d p).1.Sound := by
  obtain ⟨-, h⟩ | ⟨kind, -, h⟩ := w.reindex_cases d p <;> rw [h]
  · exact hw
  · exact hw.indexFile d p kind

/-- The timers that sleep after an event are those that slept, and perhaps one for its path. -/
theorem mem_sleepers_handle {w : Workspace} {e : Watch.Event} {t : Timer.Sleeper Path Path}
    (h : t ∈ (w.handle e).clock.sleepers) :
    t ∈ w.clock.sleepers ∨ t.key = e.path.normal ∧ t.action = e.path := by
  obtain ⟨-, hw⟩ | hw | ⟨-, hw⟩ := w.handle_cases e <;> rw [hw] at h
  · exact .inl h
  · exact Timer.Clock.mem_sleepers_schedule h
  · rw [clock_removeFile] at h
    exact .inl (Timer.Clock.mem_sleepers_cancel h)

/-- An event changes no slot but that of its path. -/
theorem pending?_handle_of_ne (w : Workspace) {e : Watch.Event} {key : Path}
    (hne : e.path.normal ≠ key) :
    (w.handle e).clock.table.pending? key = w.clock.table.pending? key := by
  obtain ⟨-, h⟩ | h | ⟨-, h⟩ := w.handle_cases e <;> rw [h]
  · rw [Timer.Clock.table_schedule, Timer.Table.pending?_schedule, if_neg hne.symm]
  · rw [clock_removeFile, Timer.Clock.table_cancel, Timer.Table.pending?_cancel, if_neg hne.symm]

/-- An event leaves every other path as it is. -/
theorem Current.handle {w : Workspace} (hw : w.Sound) {kind : Kind} {q : Path} {e : Watch.Event}
    {content : Option String} (hq : w.Current kind q content) (hne : e.path.normal ≠ q.normal)
    (hroom : w.registry.size < Registry.idCount) : (w.handle e).Current kind q content := by
  obtain ⟨-, h⟩ | h | ⟨-, h⟩ := w.handle_cases e <;> rw [h]
  · exact hq
  · exact ⟨hq.registered, hq.locations⟩
  · exact hq.removeFile hw hne hroom

/-- Indexing a file again makes its path current. -/
theorem Sound.current_reindex {w : Workspace} (hw : w.Sound) {d : Disk} {p : Path} {kind : Kind}
    (hkind : w.settings.indexing.kindOf? p = some kind)
    (hroom : (w.reindex d p).1.registry.size < Registry.idCount) :
    (w.reindex d p).1.Current kind p (d.content? p) := by
  obtain ⟨hnone, -⟩ | ⟨k, hk, h⟩ := w.reindex_cases d p
  · rw [hkind] at hnone
    cases hnone
  · obtain rfl := Option.some_inj.mp (hkind.symm.trans hk)
    rw [h] at hroom ⊢
    exact hw.current_indexFile d p kind hroom

/-- Indexing a file again leaves every other path as it is. -/
theorem Current.reindex {w : Workspace} (hw : w.Sound) {kind : Kind} {p q : Path}
    {content : Option String} (hq : w.Current kind q content) (hne : p.normal ≠ q.normal) (d : Disk)
    (hroom : (w.reindex d p).1.registry.size < Registry.idCount) :
    (w.reindex d p).1.Current kind q content := by
  obtain ⟨-, h⟩ | ⟨k, -, h⟩ := w.reindex_cases d p <;> rw [h] at hroom ⊢
  · exact hq
  · exact hq.indexFile hw hne d hroom

end Workspace

namespace Watch

/-- The state of the loop and of all that is on its way to it. -/
structure Loop where
  disk : Disk
  /-- The workspace, with its timer table and the timers that own their slots. -/
  workspace : Workspace
  /-- Events that wait to be handled. -/
  events : List Event := []
  /-- Timers that were replaced or cancelled and have not noticed yet. -/
  lapsed : List (Timer.Sleeper Path Path) := []
  /-- Actions that have started and not delivered their command yet. -/
  started : List Path := []
  /-- Commands, each to index a path again. -/
  commands : List Path := []

namespace Loop

/-- The timers that may still try to claim a slot. -/
def timers (s : Loop) : List (Timer.Sleeper Path Path) := s.workspace.clock.sleepers ++ s.lapsed

/-- Nothing waits, no timer is pending, and nothing is on its way. -/
structure Quiescent (s : Loop) : Prop where
  events : s.events = []
  table : s.workspace.clock.table.slots = []
  started : s.started = []
  commands : s.commands = []

/-- The timers that lose their slots when the workspace becomes `w`. -/
def losers (s : Loop) (w : Workspace) : List (Timer.Sleeper Path Path) :=
  s.workspace.clock.sleepers.filter fun t => w.clock.table.pending? t.key ≠ some t.generation

/-- The timer `t` ends, and the timer table becomes `table`. -/
def wake (s : Loop) (t : Timer.Sleeper Path Path) (table : Timer.Table Path) : Loop :=
  { s with
    workspace := { s.workspace with clock := { s.workspace.clock with
      table, sleepers := Timer.Clock.dropSleeper s.workspace.clock.sleepers t } }
    lapsed := Timer.Clock.dropSleeper s.lapsed t }

inductive Label where
  | change (disk : Disk)
  | enqueue (event : Event)
  | handle
  | claim (timer : Timer.Sleeper Path Path)
  | deliver (path : Path)
  | execute

inductive Step : Loop → Label → Loop → Prop
  | change (s : Loop) (disk : Disk) : Step s (.change disk) { s with disk }
  | enqueue (s : Loop) (e : Event) : Step s (.enqueue e) { s with events := s.events ++ [e] }
  | handle {s : Loop} {e : Event} {rest : List Event} (h : s.events = e :: rest) :
      Step s .handle { s with
        events := rest
        workspace := s.workspace.handle e
        lapsed := s.lapsed ++ s.losers (s.workspace.handle e) }
  | claim {s : Loop} {t : Timer.Sleeper Path Path} {table : Timer.Table Path} (ht : t ∈ s.timers)
      (h : s.workspace.clock.table.claim? t.key t.generation = some table) :
      Step s (.claim t) { s.wake t table with started := s.started ++ [t.action] }
  | miss {s : Loop} {t : Timer.Sleeper Path Path} (ht : t ∈ s.timers)
      (h : s.workspace.clock.table.claim? t.key t.generation = none) :
      Step s (.claim t) (s.wake t s.workspace.clock.table)
  | deliver {s : Loop} {p : Path} (h : p ∈ s.started) :
      Step s (.deliver p) { s with started := s.started.erase p, commands := s.commands ++ [p] }
  | execute {s : Loop} {p : Path} {rest : List Path} (h : s.commands = p :: rest) :
      Step s .execute { s with
        commands := rest
        workspace := (s.workspace.reindex s.disk p).1 }

inductive Run : Loop → List Label → Loop → Prop
  | nil (s : Loop) : Run s [] s
  | cons {s s' s'' : Loop} {l : Label} {ls : List Label} (head : Step s l s')
      (tail : Run s' ls s'') : Run s (l :: ls) s''

/-- What each step of a run preserves, the run preserves. -/
theorem Run.preserves {I : Loop → Prop} {s s' : Loop} {ls : List Label} (h : Run s ls s')
    (hstep : ∀ {s s' : Loop} {l : Label}, l ∈ ls → Step s l s' → I s → I s') (hs : I s) : I s' := by
  induction h with
  | nil s => exact hs
  | cons head tail ih =>
    exact ih (fun hl => hstep (List.mem_cons_of_mem _ hl)) (hstep List.mem_cons_self head hs)

/-! ## What steps preserve -/

theorem Step.settings {s s' : Loop} {l : Label} (h : Step s l s') :
    s'.workspace.settings = s.workspace.settings := by
  cases h with
  | handle => exact s.workspace.settings_handle _
  | execute => exact s.workspace.settings_reindex s.disk _
  | _ => rfl

theorem Step.size_le {s s' : Loop} {l : Label} (h : Step s l s') :
    s.workspace.registry.size ≤ s'.workspace.registry.size := by
  cases h with
  | handle => exact Nat.le_of_eq (congrArg Registry.size (s.workspace.registry_handle _).symm)
  | execute => exact s.workspace.size_le_size_reindex s.disk _
  | _ => exact Nat.le_refl _

theorem Step.sound {s s' : Loop} {l : Label} (h : Step s l s') (hs : s.workspace.Sound) :
    s'.workspace.Sound := by
  cases h with
  | handle => exact hs.handle _
  | execute => exact hs.reindex s.disk _
  | claim | miss => exact ⟨hs.registry, hs.store⟩
  | _ => exact hs

/-- All paths that are on their way satisfy `P`, and each timer has the slot of its path. -/
structure InFlight (P : Path → Prop) (s : Loop) : Prop where
  events : ∀ e ∈ s.events, P e.path
  timers : ∀ t ∈ s.timers, t.key = t.action.normal ∧ P t.action
  started : ∀ p ∈ s.started, P p
  commands : ∀ p ∈ s.commands, P p

theorem mem_timers_wake {s : Loop} {t u : Timer.Sleeper Path Path} {table : Timer.Table Path}
    (h : u ∈ (s.wake t table).timers) : u ∈ s.timers := by
  rcases List.mem_append.mp h with h | h
  · exact List.mem_append_left _ (List.mem_filter.mp h).1
  · exact List.mem_append_right _ (List.mem_filter.mp h).1

theorem Step.inFlight {P : Path → Prop} {s s' : Loop} {l : Label} (h : Step s l s')
    (hl : ∀ e, l = .enqueue e → P e.path) (hs : s.InFlight P) : s'.InFlight P := by
  cases h with
  | change d => exact ⟨hs.events, hs.timers, hs.started, hs.commands⟩
  | enqueue e =>
    refine ⟨?_, hs.timers, hs.started, hs.commands⟩
    exact List.forall_mem_append.mpr ⟨hs.events, by simpa using hl e rfl⟩
  | @handle e rest he =>
    have hevents := List.forall_mem_cons.mp (he ▸ hs.events)
    refine ⟨hevents.2, fun t ht => ?_, hs.started, hs.commands⟩
    rcases List.mem_append.mp ht with ht | ht
    · rcases Workspace.mem_sleepers_handle ht with ht | ⟨hkey, haction⟩
      · exact hs.timers t (List.mem_append_left _ ht)
      · rw [hkey, haction]
        exact ⟨rfl, hevents.1⟩
    · rcases List.mem_append.mp ht with ht | ht
      · exact hs.timers t (List.mem_append_right _ ht)
      · exact hs.timers t (List.mem_append_left _ (List.mem_filter.mp ht).1)
  | @claim t table ht =>
    refine ⟨hs.events, fun u hu => hs.timers u (mem_timers_wake hu), ?_, hs.commands⟩
    exact List.forall_mem_append.mpr ⟨hs.started, by simpa using (hs.timers t ht).2⟩
  | miss => exact ⟨hs.events, fun u hu => hs.timers u (mem_timers_wake hu), hs.started, hs.commands⟩
  | @deliver p hp =>
    refine ⟨hs.events, hs.timers, fun q hq => hs.started q (List.mem_of_mem_erase hq), ?_⟩
    exact List.forall_mem_append.mpr ⟨hs.commands, by simpa using hs.started p hp⟩
  | @execute p rest hp =>
    have hcommands := List.forall_mem_cons.mp (hp ▸ hs.commands)
    refine ⟨hs.events, fun t ht => hs.timers t ?_, hs.started, hcommands.2⟩
    unfold timers at ht ⊢
    rwa [Workspace.clock_reindex] at ht

end Loop

end Watch

end BehaviorIndex
