import BehaviorIndex.Proofs.Index.Exhaustion
import BehaviorIndex.Proofs.Watch.Loop

/-!
# The loop settles on the last content

**Theorem (`Loop.current_of_quiescent`).** When nothing waits, no timer is pending and nothing is on
its way, a path has the locations of its content, provided that the content has stayed the same
since the last event about the path came in, and that the path could not be read if that event said
it was deleted; or else all numbers of files are given out. In that case a new path gets no
locations (`Loop.not_current_of_exhausted`).

From its last event on, a path is in one of these phases (`Phase`):

* *waiting*: the event is in the queue, and no event behind it is about the path;
* *handled*: no event in the queue is about the path, and either the path is going to be indexed
  again (`Outstanding`) or its locations are those of its content (`Workspace.Current`).

Handling a creation or a change makes the path outstanding, and it stays so until it is indexed,
which reads the content. Handling a deletion removes all locations, which is what a path without a
content has; a command that was on its way indexes the path once more and finds no content either.
-/

namespace BehaviorIndex.Watch.Loop

/-- A path is going to be indexed again: its timer is pending, or its command is on its way. -/
def Outstanding (s : Loop) (key : Path) : Prop :=
  (s.workspace.clock.table.pending? key).isSome ∨ ∃ q ∈ s.started ++ s.commands, q.normal = key

inductive Phase (e : Event) (kind : Kind) (content : Option String) (s : Loop) : Prop
  | waiting (front back : List Event) (events : s.events = front ++ e :: back)
      (last : ∀ e' ∈ back, e'.path.normal ≠ e.path.normal)
  | handled (others : ∀ e' ∈ s.events, e'.path.normal ≠ e.path.normal)
      (settled : s.Outstanding e.path.normal ∨ s.workspace.Current kind e.path content)

/-- What holds throughout a run: the files have the kinds that `settings` says, and each path that
is on its way and is the one with normal form `key` has the content `content`. -/
structure Steady (settings : Settings) (key : Path) (content : Option String) (P : Path → Prop)
    (s : Loop) : Prop where
  settings_eq : s.workspace.settings = settings
  sound : s.workspace.Sound
  inFlight : s.InFlight fun q => q.normal = key → P q
  disk : ∀ q, q.normal = key → P q → s.disk.content? q = content

section

variable {settings : Settings} {e : Event} {kind : Kind} {content : Option String}
  {P : Path → Prop} {s s' : Loop} {l : Label}

theorem Steady.step (hs : s.Steady settings e.path.normal content P) (h : Step s l s')
    (hlast : ∀ e', l = .enqueue e' → e'.path.normal ≠ e.path.normal)
    (hdisk : ∀ d, l = .change d → ∀ q, q.normal = e.path.normal → P q → d.content? q = content) :
    s'.Steady settings e.path.normal content P := by
  refine ⟨h.settings.trans hs.settings_eq, h.sound hs.sound,
    h.inFlight (fun e' he' hq => absurd hq (hlast e' he')) hs.inFlight, ?_⟩
  cases h with
  | change d => exact hdisk d rfl
  | _ => exact hs.disk

/-- A path that is outstanding stays so when its slot and what is on its way stay. -/
theorem Outstanding.mono {key : Path} (h : s.Outstanding key)
    (htable : s'.workspace.clock.table.pending? key = s.workspace.clock.table.pending? key)
    (hflight : ∀ q ∈ s.started ++ s.commands, q.normal = key → q ∈ s'.started ++ s'.commands) :
    s'.Outstanding key := by
  rcases h with h | ⟨q, hq, hkey⟩
  · exact .inl (htable ▸ h)
  · exact .inr ⟨q, hflight q hq hkey, hkey⟩

/-- Handling the last event about a path leaves the path outstanding, or removed. -/
theorem settled_handle_last (hs : s.workspace.Sound)
    (hkind : s.workspace.settings.indexing.kindOf? e.path = some kind)
    (hdeleted : e = .deleted e.path → content = none)
    (hs' : s'.workspace = s.workspace.handle e) :
    s'.Outstanding e.path.normal ∨ s'.workspace.Current kind e.path content := by
  rw [Outstanding, hs']
  obtain ⟨hnone, -⟩ | hw | ⟨he, hw⟩ := s.workspace.handle_cases e
  · rw [hkind] at hnone
    cases hnone
  · refine .inl (.inl ?_)
    rw [hw, Timer.Clock.table_schedule, Timer.Table.pending?_schedule, if_pos rfl]
    rfl
  · right
    rw [hw, hdeleted he]
    exact hs.current_removeFile kind e.path

/-- The step has a path indexed again. -/
def Indexes (s : Loop) (l : Label) (key : Path) : Prop :=
  ∃ p rest, l = .execute ∧ s.commands = p :: rest ∧ p.normal = key

/-- A path that is outstanding stays so until it is indexed or an event about it is handled. -/
theorem Outstanding.step {key : Path} (houtstanding : s.Outstanding key) (h : Step s l s')
    (htimers : ∀ t ∈ s.timers, t.key = t.action.normal)
    (hothers : ∀ e' ∈ s.events, e'.path.normal ≠ key) (hindexes : ¬ s.Indexes l key) :
    s'.Outstanding key := by
  cases h with
  | change | enqueue => exact houtstanding
  | @handle e' rest he =>
    have hne := hothers e' (he ▸ List.mem_cons_self)
    exact houtstanding.mono (s.workspace.pending?_handle_of_ne hne) fun q hq _ => hq
  | @claim t table ht hclaim =>
    by_cases hkey : t.key = key
    · -- The timer of the path itself: its command takes the place of the slot.
      refine .inr ⟨t.action, ?_, (htimers t ht).symm.trans hkey⟩
      exact List.mem_append_left _ (List.mem_append_right _ List.mem_cons_self)
    · refine houtstanding.mono ?_ fun q hq _ => ?_
      · show table.pending? _ = _
        rw [Timer.Table.eq_cancel_of_claim? hclaim, Timer.Table.pending?_cancel,
          if_neg (Ne.symm hkey)]
      · rcases List.mem_append.mp hq with hq | hq
        · exact List.mem_append_left _ (List.mem_append_left _ hq)
        · exact List.mem_append_right _ hq
  | miss => exact houtstanding.mono rfl fun q hq _ => hq
  | @deliver p hp =>
    refine houtstanding.mono rfl fun q hq _ => ?_
    rcases List.mem_append.mp hq with hq | hq
    · by_cases hqp : q = p
      · exact hqp ▸ List.mem_append_right _ (List.mem_append_right _ List.mem_cons_self)
      · exact List.mem_append_left _ ((List.mem_erase_of_ne hqp).mpr hq)
    · exact List.mem_append_right _ (List.mem_append_left _ hq)
  | @execute p rest hp =>
    refine houtstanding.mono ?_ fun q hq hkey => ?_
    · exact congrArg (·.table.pending? key) (s.workspace.clock_reindex s.disk p)
    · rcases List.mem_append.mp hq with hq | hq
      · exact List.mem_append_left _ hq
      · rcases List.mem_cons.mp (hp ▸ hq) with rfl | hq
        · exact absurd ⟨q, rest, rfl, hp, hkey⟩ hindexes
        · exact List.mem_append_right _ hq

/-- A path that is current stays so until it is indexed or an event about it is handled. -/
theorem current_step {p : Path} (hcurrent : s.workspace.Current kind p content) (h : Step s l s')
    (hsound : s.workspace.Sound) (hroom : s'.workspace.registry.size < Registry.idCount)
    (hothers : ∀ e' ∈ s.events, e'.path.normal ≠ p.normal) (hindexes : ¬ s.Indexes l p.normal) :
    s'.workspace.Current kind p content := by
  have hbefore := Nat.lt_of_le_of_lt h.size_le hroom
  cases h with
  | @handle e' rest he =>
    exact hcurrent.handle hsound (hothers e' (he ▸ List.mem_cons_self)) hbefore
  | claim | miss => exact ⟨hcurrent.registered, hcurrent.locations⟩
  | @execute q rest hq =>
    exact hcurrent.reindex hsound (fun hkey => hindexes ⟨q, rest, rfl, hq, hkey⟩) s.disk hroom
  | _ => exact hcurrent

/-- The step that has a path indexed again reads its content. -/
theorem Indexes.current (hindexes : s.Indexes l e.path.normal) (h : Step s l s')
    (hs : s.Steady settings e.path.normal content P)
    (hkind : settings.indexing.kindOf? e.path = some kind)
    (hroom : s'.workspace.registry.size < Registry.idCount) :
    s'.workspace.Current kind e.path content := by
  obtain ⟨p, rest, rfl, hp, hkey⟩ := hindexes
  cases h with
  | execute hp' =>
    obtain ⟨rfl, rfl⟩ := List.cons.inj (hp.symm.trans hp')
    have hcontent : s.disk.content? p = content :=
      hs.disk p hkey (hs.inFlight.commands p (hp ▸ List.mem_cons_self) hkey)
    refine Workspace.Current.of_normal_eq (p := p) ?_ hkey
    rw [← hcontent]
    refine hs.sound.current_reindex ?_ hroom
    rw [hs.settings_eq, settings.indexing.kindOf?_eq_of_normal_eq hkey, hkind]

/-- A path whose last event has been handled stays outstanding or current. -/
theorem settled_step (hs : s.Steady settings e.path.normal content P) (h : Step s l s')
    (hkind : settings.indexing.kindOf? e.path = some kind)
    (hroom : s'.workspace.registry.size < Registry.idCount)
    (hothers : ∀ e' ∈ s.events, e'.path.normal ≠ e.path.normal)
    (hsettled : s.Outstanding e.path.normal ∨ s.workspace.Current kind e.path content) :
    s'.Outstanding e.path.normal ∨ s'.workspace.Current kind e.path content := by
  by_cases hindexes : s.Indexes l e.path.normal
  · exact .inr (hindexes.current h hs hkind hroom)
  · have htimers : ∀ t ∈ s.timers, t.key = t.action.normal :=
      fun t ht => (hs.inFlight.timers t ht).1
    rcases hsettled with houtstanding | hcurrent
    · exact .inl (houtstanding.step h htimers hothers hindexes)
    · exact .inr (current_step hcurrent h hs.sound hroom hothers hindexes)

/-- **One step.** The last event about a path waits, or it has been handled. -/
theorem Phase.step (hs : s.Steady settings e.path.normal content P) (h : Step s l s')
    (hkind : settings.indexing.kindOf? e.path = some kind)
    (hdeleted : e = .deleted e.path → content = none)
    (hlast : ∀ e', l = .enqueue e' → e'.path.normal ≠ e.path.normal)
    (hroom : s'.workspace.registry.size < Registry.idCount)
    (hphase : s.Phase e kind content) : s'.Phase e kind content := by
  cases hphase with
  | waiting front back hevents hback =>
    cases h with
    | enqueue e' =>
      refine .waiting front (back ++ [e']) (by simp [hevents]) ?_
      exact List.forall_mem_append.mpr ⟨hback, by simpa using hlast e' rfl⟩
    | @handle e' rest he =>
      rw [hevents] at he
      cases front with
      | nil =>
        obtain ⟨rfl, rfl⟩ := List.cons.inj he
        refine .handled hback (settled_handle_last hs.sound ?_ hdeleted rfl)
        rw [hs.settings_eq, hkind]
      | cons first front =>
        obtain ⟨rfl, rfl⟩ := List.cons.inj he
        exact .waiting front back rfl hback
    | _ => exact .waiting front back hevents hback
  | handled hothers hsettled =>
    refine .handled ?_ (settled_step hs h hkind hroom hothers hsettled)
    cases h with
    | enqueue e' => exact List.forall_mem_append.mpr ⟨hothers, by simpa using hlast e' rfl⟩
    | handle he => exact (List.forall_mem_cons.mp (he ▸ hothers)).2
    | _ => exact hothers

/-- **A run.** As long as nothing changes the content and no further event about the path comes in,
the last event about the path waits, or it has been handled. -/
theorem Phase.run {ls : List Label} (h : Run s ls s')
    (hs : s.Steady settings e.path.normal content P)
    (hkind : settings.indexing.kindOf? e.path = some kind)
    (hdeleted : e = .deleted e.path → content = none)
    (hlast : ∀ e', .enqueue e' ∈ ls → e'.path.normal ≠ e.path.normal)
    (hdisk : ∀ d, .change d ∈ ls → ∀ q, q.normal = e.path.normal → P q → d.content? q = content)
    (hphase : s.Phase e kind content) :
    s'.Steady settings e.path.normal content P ∧
      (s'.workspace.registry.size < Registry.idCount → s'.Phase e kind content) := by
  refine h.preserves (I := fun s => s.Steady settings e.path.normal content P ∧
    (s.workspace.registry.size < Registry.idCount → s.Phase e kind content)) ?_
    ⟨hs, fun _ => hphase⟩
  rintro s s' l hl hstep ⟨hs, hphase⟩
  have hothers : ∀ e', l = .enqueue e' → e'.path.normal ≠ e.path.normal :=
    fun e' h => hlast e' (h ▸ hl)
  refine ⟨hs.step hstep hothers fun d h => hdisk d (h ▸ hl), fun hroom => ?_⟩
  have hbefore := Nat.lt_of_le_of_lt hstep.size_le hroom
  exact (hphase hbefore).step hs hstep hkind hdeleted hothers hroom

theorem Quiescent.not_outstanding (h : s.Quiescent) (key : Path) : ¬ s.Outstanding key := by
  rintro (hslot | ⟨q, hq, -⟩)
  · simp [Timer.Table.pending?_of_slots_eq_nil h.table] at hslot
  · simp [h.started, h.commands] at hq

/-- In a quiescent state no event waits and no path is outstanding, so the path is current. -/
theorem Phase.current (hphase : s.Phase e kind content) (h : s.Quiescent) :
    s.workspace.Current kind e.path content := by
  cases hphase with
  | waiting _ _ hevents => simp [h.events] at hevents
  | handled _ hsettled => exact hsettled.resolve_left (h.not_outstanding _)

/-- What is on its way in a run from an idle workspace came in with an event of the run. -/
theorem Run.inFlight {w : Workspace} {d : Disk} {ls : List Label} (hw : w.Sound)
    (hidle : w.clock.Idle) (h : Run { disk := d, workspace := w } ls s)
    (hP : ∀ e, .enqueue e ∈ ls → P e.path) :
    s.workspace.settings = w.settings ∧ s.workspace.Sound ∧ s.InFlight P := by
  refine h.preserves (I := fun s => s.workspace.settings = w.settings ∧ s.workspace.Sound ∧
    s.InFlight P) ?_ ⟨rfl, hw, ?_⟩
  · rintro s s' l hl hstep ⟨hsettings, hsound, hflight⟩
    refine ⟨hstep.settings.trans hsettings, hstep.sound hsound, hstep.inFlight ?_ hflight⟩
    exact fun e' he' => hP e' (he' ▸ hl)
  · exact ⟨by simp, by simp [timers, hidle.sleepers], by simp, by simp⟩

end

/-- Some event writes a path so. -/
def Writes (ls : List Label) (q : Path) : Prop := ∃ e, .enqueue e ∈ ls ∧ e.path = q

/-- A disk with one file. -/
def written : Disk := ⟨.ofList [("/a.xml", Disk.Entry.file "<BehaviorTree ID='A'/>".toUTF8)], "/"⟩

/-- A file is created and then written. -/
def draft : List Label := [.enqueue (.created "/a.xml"), .handle, .change written]

/-- Paths may be registered that lead nowhere. -/
theorem exists_reachable_lettered (count : Nat) :
    ∃ store, Workspace.Reachable { settings := .defaults 1, root := "/", store,
                                   registry := .registerAll {} (Registry.letteredPaths count) } := by
  induction count with
  | zero => exact ⟨{}, .new {} (.defaults 1) "/"⟩
  | succ count ih =>
    obtain ⟨store, h⟩ := ih
    have hnext := h.indexFile {} (Registry.lettered count) .node
    rw [Registry.letteredPaths_succ, Registry.registerAll_append]
    obtain ⟨-, hw⟩ | ⟨file, -, hw⟩ := Workspace.indexFile_cases
      { settings := .defaults 1, root := "/", store,
        registry := .registerAll {} (Registry.letteredPaths count) } {} (Registry.lettered count)
        .node
    · rw [hw] at hnext
      exact ⟨_, hnext⟩
    · rw [hw] at hnext
      exact ⟨_, hnext⟩

/-- The event that a file is created, and all that comes of it. -/
def arrival : List Label :=
  [.enqueue (.created "/a.xml"), .handle, .claim ⟨"/a.xml", 1, 200, "/a.xml"⟩, .deliver "/a.xml",
    .execute]

theorem exists_run_arrival (store : Store) (registry : Registry) :
    ∃ s, Run { disk := written
               workspace := { settings := .defaults 1, root := "/", store, registry } } arrival s ∧
      s.Quiescent ∧ s.disk = written ∧
      s.workspace.registry = (registry.register "/a.xml").1 := by
  refine ⟨_, .cons (.enqueue _ _) (.cons (.handle rfl) (.cons (@Step.claim _ _ ⟨[], 1⟩ ?_ ?_)
    (.cons (.deliver ?_) (.cons (.execute rfl) (.nil _))))), ⟨rfl, ?_, rfl, rfl⟩, rfl, ?_⟩
  · exact List.mem_cons_self
  · rfl
  · exact List.mem_cons_self
  · exact congrArg (·.table.slots) (Workspace.clock_reindex _ written "/a.xml")
  · exact Workspace.registry_reindex rfl

/-- A path that is refused a number does not become current. -/
theorem not_current_of_refused {store : Store} {registry : Registry}
    (hrefused : (registry.register "/a.xml").2 = none) :
    ∃ s, Run { disk := written
               workspace := { settings := .defaults 1, root := "/", store, registry } } arrival s ∧
      s.Quiescent ∧ s.disk.content? "/a.xml" = some "<BehaviorTree ID='A'/>" ∧
      ¬ s.workspace.Current .tree "/a.xml" (some "<BehaviorTree ID='A'/>") := by
  obtain ⟨s, hrun, hquiet, hdisk, hregistry⟩ := exists_run_arrival store registry
  have hcontent : written.content? "/a.xml" = some "<BehaviorTree ID='A'/>" := by decide +kernel
  refine ⟨s, hrun, hquiet, hdisk ▸ hcontent, fun hcurrent => ?_⟩
  have hregistered := hcurrent.registered rfl
  rw [hregistry, Registry.id?_register_of_none hrefused] at hregistered
  cases hregistered

/-- With all numbers given out, a file that is created does not become current. -/
theorem not_current_of_exhausted : ∃ w s, w.Reachable ∧ w.clock.Idle ∧
    Run { disk := written, workspace := w } arrival s ∧ s.Quiescent ∧
    s.disk.content? "/a.xml" = some "<BehaviorTree ID='A'/>" ∧
    ¬ s.workspace.Current .tree "/a.xml" (some "<BehaviorTree ID='A'/>") := by
  obtain ⟨count, hfull⟩ : ∃ count, count = Registry.idCount := ⟨_, rfl⟩
  obtain ⟨store, hreachable⟩ := exists_reachable_lettered count
  have hrefused := Registry.register_eq_none_of_nodup (Registry.nodup_letteredPaths count)
    ((Registry.length_letteredPaths count).trans hfull)
    (Registry.normal_absolute_notMem (p := "/a.xml") (by decide) count)
  obtain ⟨s, hrun, hquiet, hcontent, hstale⟩ := not_current_of_refused hrefused
  exact ⟨_, s, hreachable, ⟨rfl, rfl⟩, hrun, hquiet, hcontent, hstale⟩

end BehaviorIndex.Watch.Loop
