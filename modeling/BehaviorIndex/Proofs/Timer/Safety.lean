import BehaviorIndex.Proofs.Timer.Table
import Mathlib.Data.Finset.Card
import Mathlib.Data.List.Induction

/-!
# Timers and their tasks

Each call to `schedule` has a task of its own. The task sleeps until its timer has run out, then
claims the slot of its key, and starts its action if the slot is still its own. A client that takes
a slot away asks the task of the slot to abort. When the task notices is not known: it may end at
once, or wake up and try its claim first.

`Scheduler` is the timer table with all tasks, and `Step` is one step of a client or of a task. The
clients take the lock of the table, and so does a claim, so the steps come one after the other, in
any order whatsoever. A `Run` records them in its trace.

**Theorem (`safe_of_run`).** In every run with fewer calls than there are generations, a task that
claims its slot starts its action exactly if its call is still the last operation on its key and its
action has not started yet; the pending keys are those whose last operation is such a call; and
nobody asks a task to abort whose action has started.

The invariant (`Inv`) ties the table and the tasks to the trace. The slot of a key holds the
generation of the call that *waits* on the key (`Waiting`), and a task that was asked to abort does
not wait any more. All steps but a call to `schedule` keep it for the same reason: they only take
slots away, from just the keys on which nobody waits any more (`Releases.inv`).
-/

namespace BehaviorIndex.Timer

/-- What has become of a task. -/
inductive Phase where
  | sleeping
  | due
  | started
  | ended
  deriving DecidableEq, Repr

/-- The task of a call to `schedule`. -/
structure Task (κ : Type) where
  key : κ
  generation : Generation
  phase : Phase := .sleeping
  /-- Somebody has asked the task to abort. -/
  aborted : Bool := false

/-- The timer table, and the tasks in the order of their calls. -/
structure Scheduler (κ : Type) where
  table : Table κ := {}
  tasks : List (Task κ) := []

namespace Scheduler

variable {κ : Type}

/-! ## What a trace tells -/

/-- What happened in a step. Tasks are named by the number of their call, from zero on. -/
inductive Event (κ : Type) where
  | schedule (key : κ) (aborted : List Nat)
  | cancel (key : κ) (found : Bool) (aborted : List Nat)
  | cancelAll (aborted : List Nat)
  /-- The timer of the task has run out. -/
  | expire (call : Nat)
  /-- The task has tried to claim its slot. -/
  | claim (call : Nat) (success : Bool)
  /-- The task has noticed that it was asked to abort. -/
  | stop (call : Nat)

namespace Event

/-- The key that is scheduled. -/
def scheduled? : Event κ → Option κ
  | schedule key _ => some key
  | _ => none

/-- The call whose action starts. -/
def started? : Event κ → Option Nat
  | claim n true => some n
  | _ => none

/-- The calls whose tasks are asked to abort. -/
def aborted : Event κ → List Nat
  | schedule _ calls | cancel _ _ calls | cancelAll calls => calls
  | _ => []

/-- A client takes the lock to schedule or to cancel the key. -/
def Touches (key : κ) : Event κ → Prop
  | schedule k _ | cancel k _ _ => k = key
  | cancelAll _ => True
  | _ => False

theorem touches_of_scheduled? {e : Event κ} {key : κ} (h : e.scheduled? = some key) :
    e.Touches key := by
  cases e with
  | schedule k _ => exact Option.some_inj.mp h
  | _ => cases h

end Event

/-- The keys of the calls to `schedule`, in their order. -/
def calls (trace : List (Event κ)) : List κ := trace.filterMap Event.scheduled?

/-- The calls whose actions have started, in that order. -/
def starts (trace : List (Event κ)) : List Nat := trace.filterMap Event.started?

/-- The last operation on a key is the call to `schedule` with this number. -/
def Latest (trace : List (Event κ)) (key : κ) (call : Nat) : Prop :=
  ∃ before aborted after, trace = before ++ .schedule key aborted :: after ∧
    call = (calls before).length ∧ ∀ e ∈ after, ¬ e.Touches key

/-- The last operation on a key is a call to `schedule` whose action has not started. -/
def Waiting (trace : List (Event κ)) (key : κ) (call : Nat) : Prop :=
  Latest trace key call ∧ call ∉ starts trace

section

variable {trace : List (Event κ)} {e : Event κ} {key key' : κ} {call call' : Nat}

theorem calls_concat (trace : List (Event κ)) (e : Event κ) :
    calls (trace ++ [e]) = calls trace ++ e.scheduled?.toList := by
  rw [calls, List.filterMap_append]
  cases h : e.scheduled? <;> simp [calls, h]

theorem starts_concat (trace : List (Event κ)) (e : Event κ) :
    starts (trace ++ [e]) = starts trace ++ e.started?.toList := by
  rw [starts, List.filterMap_append]
  cases h : e.started? <;> simp [starts, h]

theorem latest_concat : Latest (trace ++ [e]) key call ↔
    (e.scheduled? = some key ∧ call = (calls trace).length) ∨
      (¬ e.Touches key ∧ Latest trace key call) := by
  constructor
  · rintro ⟨before, aborted, after, htrace, hcall, hafter⟩
    rcases List.eq_nil_or_concat after with rfl | ⟨after, last, rfl⟩
    · obtain ⟨rfl, hlast⟩ := List.append_inj' htrace rfl
      cases List.singleton_inj.mp hlast
      exact .inl ⟨rfl, hcall⟩
    · rw [List.concat_eq_append] at htrace hafter
      rw [← List.cons_append, ← List.append_assoc] at htrace
      obtain ⟨rfl, hlast⟩ := List.append_inj' htrace rfl
      cases List.singleton_inj.mp hlast
      refine .inr ⟨hafter e (by simp), before, aborted, after, rfl, hcall, fun e' he' => ?_⟩
      exact hafter e' (List.mem_append_left _ he')
  · rintro (⟨hkey, hcall⟩ | ⟨htouches, before, aborted, after, rfl, hcall, hafter⟩)
    · cases e with
      | schedule k aborted =>
        cases hkey
        exact ⟨trace, aborted, [], rfl, hcall, by simp⟩
      | _ => cases hkey
    · refine ⟨before, aborted, after ++ [e], by simp, hcall, ?_⟩
      exact List.forall_mem_append.mpr ⟨hafter, by simpa using htouches⟩

namespace Latest

theorem getElem?_calls (h : Latest trace key call) : (calls trace)[call]? = some key := by
  obtain ⟨before, aborted, after, rfl, rfl, -⟩ := h
  rw [calls, List.filterMap_append, ← calls, List.getElem?_append_right (Nat.le_refl _),
    Nat.sub_self]
  rfl

theorem lt_length (h : Latest trace key call) : call < (calls trace).length :=
  (List.getElem?_eq_some_iff.mp h.getElem?_calls).1

/-- A call has one key. -/
theorem key_unique (h : Latest trace key call) (h' : Latest trace key' call) : key = key' :=
  Option.some_inj.mp (h.getElem?_calls.symm.trans h'.getElem?_calls)

/-- A key has one last operation. -/
theorem call_unique (h : Latest trace key call) (h' : Latest trace key call') : call = call' := by
  induction trace using List.reverseRecOn with
  | nil =>
    obtain ⟨before, aborted, after, hnil, -⟩ := h
    simp at hnil
  | append_singleton trace e ih =>
    rcases latest_concat.mp h with ⟨hkey, rfl⟩ | ⟨htouches, h⟩
    · rcases latest_concat.mp h' with ⟨-, rfl⟩ | ⟨htouches', -⟩
      · rfl
      · exact absurd (Event.touches_of_scheduled? hkey) htouches'
    · rcases latest_concat.mp h' with ⟨hkey', -⟩ | ⟨-, h'⟩
      · exact absurd (Event.touches_of_scheduled? hkey') htouches
      · exact ih h h'

end Latest

/-- Events that are no calls and start no action: on the keys that they touch nobody waits. -/
theorem waiting_concat_of_not_started (hscheduled : e.scheduled? = none)
    (hstarted : e.started? = none) :
    Waiting (trace ++ [e]) key call ↔ ¬ e.Touches key ∧ Waiting trace key call := by
  simp [Waiting, latest_concat, starts_concat, hscheduled, hstarted, and_assoc]

/-- When the call that waits on a key starts its action, nobody waits on the key any more. -/
theorem waiting_concat_claim (h : Waiting trace key call) :
    Waiting (trace ++ [.claim call true]) key' call' ↔ key' ≠ key ∧ Waiting trace key' call' := by
  simp only [Waiting, latest_concat, starts_concat, Event.scheduled?, Event.started?, Event.Touches,
    reduceCtorEq, false_and, false_or, not_false_eq_true, true_and, Option.toList_some,
    List.mem_append, List.mem_singleton, not_or]
  constructor
  · rintro ⟨hlatest, hstarts, hne⟩
    refine ⟨?_, hlatest, hstarts⟩
    rintro rfl
    exact hne (hlatest.call_unique h.1)
  · rintro ⟨hne, hlatest, hstarts⟩
    refine ⟨hlatest, hstarts, ?_⟩
    rintro rfl
    exact hne (hlatest.key_unique h.1)

end

/-! ## Tasks -/

/-- The tasks after those of some calls have been asked to abort. -/
def askAbort (tasks : List (Task κ)) (calls : List Nat) : List (Task κ) :=
  tasks.mapIdx fun n t => if n ∈ calls then { t with aborted := true } else t

/-- The tasks keep their keys and generations, and only those of the calls in `asked` are asked to
abort. -/
structure Carries (asked : List Nat) (tasks tasks' : List (Task κ)) : Prop where
  keys : tasks'.map Task.key = tasks.map Task.key
  task : ∀ n t', tasks'[n]? = some t' → ∃ t, tasks[n]? = some t ∧ t'.generation = t.generation ∧
    (t'.aborted = true → t.aborted = true ∨ n ∈ asked)

theorem getElem?_concat_eq_some {tasks : List (Task κ)} {new t : Task κ} {n : Nat}
    (h : (tasks ++ [new])[n]? = some t) : tasks[n]? = some t ∨ n = tasks.length ∧ t = new := by
  rw [List.getElem?_append] at h
  split_ifs at h with hn
  · exact .inl h
  · rw [List.getElem?_singleton] at h
    split_ifs at h with hzero
    exact .inr ⟨by omega, (Option.some_inj.mp h).symm⟩

theorem carries_askAbort (tasks : List (Task κ)) (asked : List Nat) :
    Carries asked tasks (askAbort tasks asked) := by
  refine ⟨List.ext_getElem? fun n => ?_, fun n t' ht' => ?_⟩
  · rw [askAbort, List.getElem?_map, List.getElem?_mapIdx, List.getElem?_map, Option.map_map]
    congr 1
    funext t
    simp only [Function.comp_apply]
    split_ifs <;> rfl
  · rw [askAbort, List.getElem?_mapIdx] at ht'
    obtain ⟨t, ht, rfl⟩ := Option.map_eq_some_iff.mp ht'
    refine ⟨t, ht, ?_⟩
    split_ifs with hasked
    · exact ⟨rfl, fun _ => .inr hasked⟩
    · exact ⟨rfl, .inl⟩

theorem carries_set {tasks : List (Task κ)} {n : Nat} {t : Task κ} (ht : tasks[n]? = some t)
    (phase : Phase) : Carries [] tasks (tasks.set n { t with phase }) := by
  refine ⟨List.ext_getElem? fun m => ?_, fun m t' ht' => ?_⟩
  · rw [List.map_set, List.getElem?_set, List.getElem?_map]
    split_ifs with hnm hlt
    · rw [← hnm, ht]
      rfl
    · rw [List.length_map] at hlt
      exact absurd (List.getElem?_eq_some_iff.mp ht).1 hlt
    · rfl
  · rw [List.getElem?_set] at ht'
    split_ifs at ht' with hnm hlt
    · cases ht'
      exact ⟨t, hnm ▸ ht, rfl, .inl⟩
    · exact ⟨t', ht', rfl, .inl⟩

/-! ## Steps and runs -/

variable [DecidableEq κ]

/-- The calls whose tasks own the slots of the keys that satisfy `p`. -/
def holders (s : Scheduler κ) (p : κ → Bool) : List Nat :=
  (List.range s.tasks.length).filter fun n => s.tasks[n]?.any fun t =>
    p t.key && decide (s.table.pending? t.key = some t.generation)

/-- One step of a client or of a task. -/
inductive Step : Scheduler κ → Event κ → Scheduler κ → Prop
  | schedule (s : Scheduler κ) (key : κ) :
      Step s (.schedule key (s.holders (· = key)))
        { table := s.table.schedule key
          tasks := askAbort s.tasks (s.holders (· = key)) ++
            [{ key, generation := (s.table.schedule key).last }] }
  | cancel (s : Scheduler κ) (key : κ) :
      Step s (.cancel key (s.table.isPending key) (s.holders (· = key)))
        { table := s.table.cancel key, tasks := askAbort s.tasks (s.holders (· = key)) }
  | cancelAll (s : Scheduler κ) :
      Step s (.cancelAll (s.holders fun _ => true))
        { table := s.table.cancelAll, tasks := askAbort s.tasks (s.holders fun _ => true) }
  | expire {s : Scheduler κ} {n : Nat} {t : Task κ} (ht : s.tasks[n]? = some t)
      (hphase : t.phase = .sleeping) :
      Step s (.expire n) { s with tasks := s.tasks.set n { t with phase := .due } }
  | claim {s : Scheduler κ} {n : Nat} {t : Task κ} {table : Table κ} (ht : s.tasks[n]? = some t)
      (hphase : t.phase = .due) (hclaim : s.table.claim? t.key t.generation = some table) :
      Step s (.claim n true) { table, tasks := s.tasks.set n { t with phase := .started } }
  | miss {s : Scheduler κ} {n : Nat} {t : Task κ} (ht : s.tasks[n]? = some t)
      (hphase : t.phase = .due) (hclaim : s.table.claim? t.key t.generation = none) :
      Step s (.claim n false) { s with tasks := s.tasks.set n { t with phase := .ended } }
  /-- This would also interrupt an action that has started. -/
  | stop {s : Scheduler κ} {n : Nat} {t : Task κ} (ht : s.tasks[n]? = some t)
      (haborted : t.aborted = true) (hphase : t.phase ≠ .ended) :
      Step s (.stop n) { s with tasks := s.tasks.set n { t with phase := .ended } }

/-- A run from the empty table, with its trace. -/
inductive Run : List (Event κ) → Scheduler κ → Prop
  | nil : Run [] {}
  | concat {trace : List (Event κ)} {e : Event κ} {s s' : Scheduler κ} (h : Run trace s)
      (step : Step s e s') : Run (trace ++ [e]) s'

/-- What holds in a state that is reached with a trace. -/
structure Safe (trace : List (Event κ)) (s : Scheduler κ) : Prop where
  /-- No action starts twice. -/
  starts_nodup : (starts trace).Nodup
  /-- A claim starts the action exactly if its call waits: nobody has scheduled or cancelled the key
  since the call. -/
  claim_iff : ∀ before call success after, trace = before ++ .claim call success :: after →
    (success = true ↔ ∃ key, Waiting before key call)
  isPending_iff : ∀ key, s.table.isPending key = true ↔ ∃ call, Waiting trace key call
  pendingCount_eq : ∃ keys : Finset κ, (∀ key, key ∈ keys ↔ ∃ call, Waiting trace key call) ∧
    s.table.pendingCount = keys.card
  cancel_iff : ∀ before key found aborted after,
    trace = before ++ .cancel key found aborted :: after →
    (found = true ↔ ∃ call, Waiting before key call)
  /-- No abort is asked of a task whose action has started. -/
  not_started_of_aborted : ∀ before e after, trace = before ++ e :: after →
    ∀ call ∈ e.aborted, call ∉ starts before
  /-- So no action is interrupted. -/
  not_started_of_stop : ∀ before call after, trace = before ++ .stop call :: after →
    call ∉ starts before

/-- Before each event of a run there was a state in which it could happen. -/
theorem Run.split {before after : List (Event κ)} {e : Event κ} {s : Scheduler κ}
    (h : Run (before ++ e :: after) s) : ∃ s₁ s₂, Run before s₁ ∧ Step s₁ e s₂ := by
  generalize htrace : before ++ e :: after = trace at h
  induction h generalizing after with
  | nil => simp at htrace
  | @concat trace last s s' hrun step ih =>
    rcases List.eq_nil_or_concat after with rfl | ⟨after, last', rfl⟩
    · obtain ⟨rfl, hlast⟩ := List.append_inj' htrace rfl
      cases List.singleton_inj.mp hlast
      exact ⟨s, s', hrun, step⟩
    · rw [List.concat_eq_append, ← List.cons_append, ← List.append_assoc] at htrace
      exact ih (List.append_inj' htrace rfl).1

theorem mem_holders {s : Scheduler κ} {p : κ → Bool} {n : Nat} : n ∈ s.holders p ↔
    ∃ t, s.tasks[n]? = some t ∧ p t.key = true ∧ s.table.pending? t.key = some t.generation := by
  rw [holders, List.mem_filter, List.mem_range]
  constructor
  · rintro ⟨-, hany⟩
    cases ht : s.tasks[n]? with
    | none => simp [ht] at hany
    | some t => exact ⟨t, rfl, by simpa [ht] using hany⟩
  · rintro ⟨t, ht, hown⟩
    exact ⟨(List.getElem?_eq_some_iff.mp ht).1, by simpa [ht] using hown⟩

/-! ## The invariant -/

/-- The table and the tasks are as the trace tells. -/
structure Inv (trace : List (Event κ)) (s : Scheduler κ) : Prop where
  keys : s.tasks.map Task.key = calls trace
  last : s.table.last.toNat = (calls trace).length
  generation : ∀ n t, s.tasks[n]? = some t → t.generation.toNat = n + 1
  slots : (s.table.slots.map Prod.fst).Nodup
  pending : ∀ key g, s.table.pending? key = some g ↔ ∃ n, Waiting trace key n ∧ g.toNat = n + 1
  starts_lt : ∀ n ∈ starts trace, n < (calls trace).length
  starts_nodup : (starts trace).Nodup
  aborted : ∀ n t, s.tasks[n]? = some t → t.aborted = true →
    n ∉ starts trace ∧ ∀ key, ¬ Waiting trace key n

namespace Inv

variable {trace : List (Event κ)} {e : Event κ} {s s' : Scheduler κ} {n : Nat} {t : Task κ}

theorem empty : Inv ([] : List (Event κ)) {} where
  keys := rfl
  last := rfl
  generation n t h := by simp at h
  slots := List.nodup_nil
  pending key g := by
    have hnone : ∀ n, ¬ Waiting ([] : List (Event κ)) key n := by
      rintro n ⟨⟨before, aborted, after, h, -⟩, -⟩
      simp at h
    simp [hnone, Table.pending?]
  starts_lt n h := by simp [starts] at h
  starts_nodup := List.nodup_nil
  aborted n t h := by simp at h

theorem getElem?_calls (h : Inv trace s) (ht : s.tasks[n]? = some t) :
    (calls trace)[n]? = some t.key := by
  rw [← h.keys, List.getElem?_map, ht]
  rfl

/-- A task owns the slot of its key exactly if its call waits. -/
theorem owns_iff (h : Inv trace s) (ht : s.tasks[n]? = some t) :
    s.table.pending? t.key = some t.generation ↔ Waiting trace t.key n := by
  rw [h.pending]
  have hgeneration := h.generation n t ht
  constructor
  · rintro ⟨m, hm, hgen⟩
    obtain rfl : m = n := by omega
    exact hm
  · intro hn
    exact ⟨n, hn, hgeneration⟩

theorem exists_waiting_iff (h : Inv trace s) (ht : s.tasks[n]? = some t) :
    (∃ key, Waiting trace key n) ↔ Waiting trace t.key n := by
  refine ⟨?_, fun hn => ⟨t.key, hn⟩⟩
  rintro ⟨key, hn⟩
  have hkey := (h.getElem?_calls ht).symm.trans hn.1.getElem?_calls
  exact Option.some_inj.mp hkey ▸ hn

theorem waiting_of_mem_holders (h : Inv trace s) {p : κ → Bool} (hn : n ∈ s.holders p) :
    ∃ key, p key = true ∧ Waiting trace key n := by
  obtain ⟨t, ht, hp, hown⟩ := mem_holders.mp hn
  exact ⟨t.key, hp, (h.owns_iff ht).mp hown⟩

theorem isPending_iff (h : Inv trace s) (hfew : (calls trace).length < UInt64.size) (key : κ) :
    s.table.isPending key = true ↔ ∃ n, Waiting trace key n := by
  rw [Table.isPending, Option.isSome_iff_exists]
  constructor
  · rintro ⟨g, hg⟩
    obtain ⟨n, hn, -⟩ := (h.pending key g).mp hg
    exact ⟨n, hn⟩
  · rintro ⟨n, hn⟩
    have hlt := hn.1.lt_length
    refine ⟨UInt64.ofNat (n + 1), (h.pending key _).mpr ⟨n, hn, ?_⟩⟩
    exact UInt64.toNat_ofNat_of_lt' (by omega)

end Inv

/-! ## Steps that take slots away -/

/-- A step that gives out no slot, and takes away those of all keys but the ones in `stays`. On
these keys somebody waits as before, and on the others nobody does any more. The tasks of the calls
in `asked` are asked to abort. -/
structure Releases (trace : List (Event κ)) (e : Event κ) (s s' : Scheduler κ) (stays : κ → Prop)
    (asked : List Nat) : Prop where
  scheduled : e.scheduled? = none
  last : s'.table.last = s.table.last
  slots : s'.table.slots.Sublist s.table.slots
  pending : ∀ key g, s'.table.pending? key = some g ↔ stays key ∧ s.table.pending? key = some g
  waiting : ∀ key n, Waiting (trace ++ [e]) key n ↔ stays key ∧ Waiting trace key n
  started : ∀ n, e.started? = some n → ∃ key, ¬ stays key ∧ Waiting trace key n
  tasks : Carries asked s.tasks s'.tasks
  asked : ∀ n ∈ asked, e.started? = none ∧ ∃ key, ¬ stays key ∧ Waiting trace key n

namespace Releases

variable {trace : List (Event κ)} {e : Event κ} {s s' : Scheduler κ} {stays : κ → Prop}
  {asked : List Nat} {n : Nat} {t : Task κ}

theorem calls_eq (h : Releases trace e s s' stays asked) : calls (trace ++ [e]) = calls trace := by
  rw [calls_concat, h.scheduled]
  simp

/-- The task of a call that loses its slot does not wait any more. -/
theorem not_waiting (h : Releases trace e s s' stays asked) {key : κ} (hstays : ¬ stays key)
    (hn : Waiting trace key n) (key' : κ) : ¬ Waiting (trace ++ [e]) key' n := by
  intro hn'
  obtain ⟨hstays', hn'⟩ := (h.waiting key' n).mp hn'
  exact hstays (hn.1.key_unique hn'.1 ▸ hstays')

theorem starts_nodup (h : Releases trace e s s' stays asked) (hinv : Inv trace s) :
    (starts (trace ++ [e])).Nodup := by
  rw [starts_concat]
  cases hstart : e.started? with
  | none => simpa using hinv.starts_nodup
  | some n =>
    obtain ⟨key, -, hn⟩ := h.started n hstart
    simpa [List.nodup_append] using ⟨hinv.starts_nodup, fun m hm hmn => hn.2 (hmn ▸ hm)⟩

/-- A task that was asked to abort does not start, and does not wait. -/
theorem aborted (h : Releases trace e s s' stays asked) (hinv : Inv trace s)
    (ht : s'.tasks[n]? = some t) (haborted : t.aborted = true) :
    n ∉ starts (trace ++ [e]) ∧ ∀ key, ¬ Waiting (trace ++ [e]) key n := by
  rw [starts_concat, List.mem_append, Option.mem_toList]
  obtain ⟨t', ht', -, hcases⟩ := h.tasks.task n t ht
  rcases hcases haborted with haborted | hn
  · obtain ⟨hnot, hidle⟩ := hinv.aborted n t' ht' haborted
    refine ⟨?_, fun key hwait => hidle key ((h.waiting key n).mp hwait).2⟩
    rintro (hn | hn)
    · exact hnot hn
    · obtain ⟨key, -, hwait⟩ := h.started n hn
      exact hidle key hwait
  · obtain ⟨hnone, key, hstays, hwait⟩ := h.asked n hn
    refine ⟨?_, h.not_waiting hstays hwait⟩
    rintro (hn | hn)
    · exact hwait.2 hn
    · rw [hnone] at hn
      cases hn

/-- Such a step keeps the invariant. -/
theorem inv (h : Releases trace e s s' stays asked) (hinv : Inv trace s) :
    Inv (trace ++ [e]) s' where
  keys := by rw [h.tasks.keys, h.calls_eq, hinv.keys]
  last := by rw [h.last, h.calls_eq, hinv.last]
  generation n t ht := by
    obtain ⟨t', ht', hgeneration, -⟩ := h.tasks.task n t ht
    rw [hgeneration, hinv.generation n t' ht']
  slots := hinv.slots.sublist (h.slots.map _)
  pending key g := by
    rw [h.pending, hinv.pending]
    simp only [h.waiting, and_assoc, exists_and_left]
  starts_lt n hn := by
    rw [h.calls_eq]
    rw [starts_concat, List.mem_append, Option.mem_toList] at hn
    rcases hn with hn | hn
    · exact hinv.starts_lt n hn
    · obtain ⟨key, -, hwait⟩ := h.started n hn
      exact hwait.1.lt_length
  starts_nodup := h.starts_nodup hinv
  aborted _ _ ht haborted := h.aborted hinv ht haborted

end Releases

namespace Inv

variable {trace : List (Event κ)} {e : Event κ} {s s' : Scheduler κ} {n : Nat} {t : Task κ}

/-- A task goes on and leaves the table alone. -/
theorem setPhase (h : Inv trace s) (ht : s.tasks[n]? = some t) (phase : Phase)
    (htouches : ∀ key, ¬ e.Touches key) (hstarted : e.started? = none) :
    Inv (trace ++ [e]) { s with tasks := s.tasks.set n { t with phase } } := by
  have hscheduled : e.scheduled? = none := by
    cases hkey : e.scheduled? with
    | none => rfl
    | some key => exact absurd (Event.touches_of_scheduled? hkey) (htouches key)
  refine Releases.inv (?_ : Releases _ _ _ _ (fun _ => True) []) h
  refine ⟨hscheduled, rfl, List.Sublist.refl _, by simp, fun key n => ?_, by simp [hstarted],
    carries_set ht phase, by simp⟩
  rw [waiting_concat_of_not_started hscheduled hstarted]
  simp [htouches]

theorem cancel (h : Inv trace s) (key : κ) (found : Bool) :
    Inv (trace ++ [.cancel key found (s.holders (· = key))])
      { table := s.table.cancel key, tasks := askAbort s.tasks (s.holders (· = key)) } := by
  refine Releases.inv (?_ : Releases _ _ _ _ (fun k => k ≠ key) (s.holders (· = key))) h
  refine ⟨rfl, rfl, List.filter_sublist, fun k g => ?_, fun k n => ?_, by simp [Event.started?],
    carries_askAbort _ _, fun n hn => ⟨rfl, ?_⟩⟩
  · rw [Table.pending?_cancel]
    split_ifs with hk <;> simp [hk]
  · rw [waiting_concat_of_not_started rfl rfl, Event.Touches, ne_comm, ne_eq]
  · obtain ⟨k, hk, hwait⟩ := h.waiting_of_mem_holders hn
    exact ⟨k, by simpa using hk, hwait⟩

theorem cancelAll (h : Inv trace s) :
    Inv (trace ++ [.cancelAll (s.holders fun _ => true)])
      { table := s.table.cancelAll, tasks := askAbort s.tasks (s.holders fun _ => true) } := by
  refine Releases.inv (?_ : Releases _ _ _ _ (fun _ => False) (s.holders fun _ => true)) h
  refine ⟨rfl, rfl, List.nil_sublist _, fun k g => ?_, fun k n => ?_, by simp [Event.started?],
    carries_askAbort _ _, fun n hn => ⟨rfl, ?_⟩⟩
  · simp [Table.pending?_of_slots_eq_nil (t := s.table.cancelAll) rfl]
  · rw [waiting_concat_of_not_started rfl rfl, Event.Touches, not_true]
  · obtain ⟨k, -, hwait⟩ := h.waiting_of_mem_holders hn
    exact ⟨k, id, hwait⟩

/-- A task claims its slot. -/
theorem claim (h : Inv trace s) {table : Table κ} (ht : s.tasks[n]? = some t)
    (hclaim : s.table.claim? t.key t.generation = some table) :
    Inv (trace ++ [.claim n true]) { table, tasks := s.tasks.set n { t with phase := .started } } :=
    by
  have hwait := (h.owns_iff ht).mp (Table.pending?_of_claim? hclaim)
  obtain rfl := Table.eq_cancel_of_claim? hclaim
  refine Releases.inv (?_ : Releases _ _ _ _ (fun k => k ≠ t.key) []) h
  refine ⟨rfl, rfl, List.filter_sublist, fun k g => ?_, fun k m => waiting_concat_claim hwait, ?_,
    carries_set ht .started, by simp⟩
  · rw [Table.pending?_cancel]
    split_ifs with hk <;> simp [hk]
  · rintro m ⟨⟩
    exact ⟨t.key, by simp, hwait⟩

/-! ## Calls -/

omit [DecidableEq κ] in
theorem waiting_concat_schedule {key key' : κ} {asked : List Nat} :
    Waiting (trace ++ [.schedule key asked]) key' n ↔
      (key = key' ∧ n = (calls trace).length ∧ n ∉ starts trace) ∨
        (key ≠ key' ∧ Waiting trace key' n) := by
  simp only [Waiting, latest_concat, starts_concat, Event.scheduled?, Event.started?, Event.Touches,
    Option.toList_none, List.append_nil, Option.some_inj]
  tauto

theorem slots_nodup_schedule (h : Inv trace s) (key : κ) :
    ((s.table.schedule key).slots.map Prod.fst).Nodup := by
  rw [Table.schedule, List.map_append, List.nodup_append]
  refine ⟨h.slots.sublist (List.filter_sublist.map _), List.nodup_singleton _, ?_⟩
  intro k hk k' hk' heq
  obtain ⟨slot, hslot, rfl⟩ := List.mem_map.mp hk
  rw [List.map_singleton, List.mem_singleton] at hk'
  have hne := (List.mem_filter.mp hslot).2
  simp [heq, hk'] at hne

theorem pending_schedule (h : Inv trace s) {key : κ} {asked : List Nat}
    (hlast : (s.table.last + 1).toNat = (calls trace).length + 1) (key' : κ) (g : Generation) :
    (s.table.schedule key).pending? key' = some g ↔
      ∃ n, Waiting (trace ++ [.schedule key asked]) key' n ∧ g.toNat = n + 1 := by
  simp only [waiting_concat_schedule]
  rw [Table.pending?_schedule]
  by_cases hkey : key' = key
  · -- The new call waits: it is not among the calls whose actions have started.
    have hnew : (calls trace).length ∉ starts trace := fun hn =>
      Nat.lt_irrefl _ (h.starts_lt _ hn)
    rw [if_pos hkey, Option.some_inj, ← UInt64.toNat_inj, hlast]
    constructor
    · intro hg
      exact ⟨_, .inl ⟨hkey.symm, rfl, hnew⟩, hg.symm⟩
    · rintro ⟨n, ⟨-, rfl, -⟩ | ⟨hne, -⟩, hg⟩
      · exact hg.symm
      · exact absurd hkey.symm hne
  · rw [if_neg hkey, h.pending]
    simp [Ne.symm hkey]

/-- The tasks that own the slots of some keys do not wait on other keys. -/
theorem aborted_askAbort (h : Inv trace s) {key : κ}
    (ht : (askAbort s.tasks (s.holders (· = key)))[n]? = some t) (haborted : t.aborted = true) :
    n ∉ starts trace ∧ ∀ key', key ≠ key' → ¬ Waiting trace key' n := by
  obtain ⟨t', ht', -, hcases⟩ := (carries_askAbort _ _).task n t ht
  rcases hcases haborted with haborted | hn
  · obtain ⟨hnot, hidle⟩ := h.aborted n t' ht' haborted
    exact ⟨hnot, fun key' _ => hidle key'⟩
  · obtain ⟨k, hk, hwait⟩ := h.waiting_of_mem_holders hn
    have hkey : k = key := by simpa using hk
    exact ⟨hwait.2, fun key' hne hwait' => hne (hkey ▸ hwait.1.key_unique hwait'.1)⟩

/-- A client schedules a key. -/
theorem schedule (h : Inv trace s) (key : κ)
    (hfew : (calls (trace ++ [.schedule key (s.holders (· = key))])).length < UInt64.size) :
    Inv (trace ++ [.schedule key (s.holders (· = key))])
      { table := s.table.schedule key
        tasks := askAbort s.tasks (s.holders (· = key)) ++
          [{ key, generation := (s.table.schedule key).last }] } := by
  have hcarries := carries_askAbort s.tasks (s.holders (· = key))
  have hlength : (askAbort s.tasks (s.holders (· = key))).length = (calls trace).length := by
    rw [← h.keys, ← hcarries.keys, List.length_map]
  have hcalls : ∀ asked, calls (trace ++ [.schedule key asked]) = calls trace ++ [key] :=
    fun asked => calls_concat trace _
  have hstarts : ∀ asked, starts (trace ++ [.schedule key asked]) = starts trace := fun asked => by
    simp [starts_concat, Event.started?]
  have hlast : (s.table.last + 1).toNat = (calls trace).length + 1 := by
    rw [hcalls, List.length_append, List.length_singleton] at hfew
    rw [UInt64.toNat_add, h.last]
    exact Nat.mod_eq_of_lt hfew
  refine ⟨?_, ?_, ?_, h.slots_nodup_schedule key, h.pending_schedule hlast, ?_, ?_, ?_⟩
  · rw [List.map_append, hcarries.keys, h.keys, hcalls]
    rfl
  · rw [hcalls, List.length_append]
    exact hlast
  · intro n t ht
    rcases getElem?_concat_eq_some ht with ht | ⟨rfl, rfl⟩
    · obtain ⟨t', ht', hgeneration, -⟩ := hcarries.task n t ht
      rw [hgeneration, h.generation n t' ht']
    · rw [hlength]
      exact hlast
  · intro n hn
    rw [hstarts] at hn
    rw [hcalls, List.length_append]
    exact Nat.lt_add_right _ (h.starts_lt n hn)
  · rw [hstarts]
    exact h.starts_nodup
  · intro n t ht haborted
    rw [hstarts]
    rcases getElem?_concat_eq_some ht with ht | ⟨-, rfl⟩
    · obtain ⟨hnot, hidle⟩ := h.aborted_askAbort ht haborted
      refine ⟨hnot, fun key' hn => ?_⟩
      rcases waiting_concat_schedule.mp hn with ⟨-, rfl, -⟩ | ⟨hne, hn⟩
      · rw [← hlength] at ht
        simp at ht
      · exact hidle key' hne hn
    · cases haborted

/-! ## Runs -/

/-- **One step.** Every step keeps the invariant, as long as there are generations left. -/
theorem step (h : Inv trace s) (hstep : Step s e s')
    (hfew : (calls (trace ++ [e])).length < UInt64.size) : Inv (trace ++ [e]) s' := by
  cases hstep with
  | schedule key => exact h.schedule key hfew
  | cancel key => exact h.cancel key _
  | cancelAll => exact h.cancelAll
  | expire ht => exact h.setPhase ht .due (fun _ => id) rfl
  | claim ht _ hclaim => exact h.claim ht hclaim
  | miss ht => exact h.setPhase ht .ended (fun _ => id) rfl
  | stop ht => exact h.setPhase ht .ended (fun _ => id) rfl

theorem pendingCount_eq (h : Inv trace s) (hfew : (calls trace).length < UInt64.size) :
    ∃ keys : Finset κ, (∀ key, key ∈ keys ↔ ∃ n, Waiting trace key n) ∧
      s.table.pendingCount = keys.card := by
  refine ⟨(s.table.slots.map Prod.fst).toFinset, fun key => ?_, ?_⟩
  · rw [← h.isPending_iff hfew, Table.isPending, Table.pending?, List.lookup_isSome_iff,
      List.mem_toFinset, List.mem_map]
    simp only [beq_iff_eq, @eq_comm κ key]
  · rw [List.toFinset_card_of_nodup h.slots, List.length_map, Table.pendingCount]

end Inv

section

variable {trace before after : List (Event κ)} {e : Event κ} {s s' : Scheduler κ}

/-- **A run.** The invariant holds in every state that is reached. -/
theorem Run.inv (h : Run trace s) (hfew : (calls trace).length < UInt64.size) : Inv trace s := by
  induction h with
  | nil => exact Inv.empty
  | @concat trace e s s' _ step ih =>
    refine (ih (Nat.lt_of_le_of_lt ?_ hfew)).step step hfew
    rw [calls_concat, List.length_append]
    exact Nat.le_add_right _ _

/-- Before each event of a run, the invariant holds of a state in which the event could happen. -/
theorem Run.inv_before (h : Run (before ++ e :: after) s)
    (hfew : (calls (before ++ e :: after)).length < UInt64.size) :
    ∃ s₁ s₂, Inv before s₁ ∧ (calls before).length < UInt64.size ∧ Step s₁ e s₂ := by
  obtain ⟨s₁, s₂, hbefore, hstep⟩ := h.split
  have hlt : (calls before).length < UInt64.size := by
    refine Nat.lt_of_le_of_lt ?_ hfew
    rw [calls, calls, List.filterMap_append, List.length_append]
    exact Nat.le_add_right _ _
  exact ⟨s₁, s₂, hbefore.inv hlt, hlt, hstep⟩

theorem Step.claim_iff {call : Nat} {success : Bool} (hinv : Inv trace s)
    (h : Step s (.claim call success) s') : success = true ↔ ∃ key, Waiting trace key call := by
  cases h with
  | claim ht _ hclaim =>
    rw [hinv.exists_waiting_iff ht, ← hinv.owns_iff ht]
    simp [Table.pending?_of_claim? hclaim]
  | miss ht _ hclaim =>
    rw [hinv.exists_waiting_iff ht, ← hinv.owns_iff ht]
    simp only [Bool.false_eq_true, false_iff]
    intro hown
    simp [Table.claim?, hown] at hclaim

theorem Step.not_started_of_aborted (hinv : Inv trace s) (h : Step s e s') :
    ∀ call ∈ e.aborted, call ∉ starts trace := by
  intro call hcall
  have hholders : ∀ p, call ∈ s.holders p → call ∉ starts trace := by
    intro p hp
    obtain ⟨key, -, hwait⟩ := hinv.waiting_of_mem_holders hp
    exact hwait.2
  cases h with
  | schedule | cancel | cancelAll =>
    rw [Event.aborted] at hcall
    exact hholders _ hcall
  | expire | claim | miss | stop => cases hcall

/-- **Safety.** Every state that is reached with fewer calls than there are generations is safe. -/
theorem safe_of_run (h : Run trace s) (hfew : (calls trace).length < UInt64.size) :
    Safe trace s where
  starts_nodup := (h.inv hfew).starts_nodup
  claim_iff before call success after htrace := by
    subst htrace
    obtain ⟨s₁, s₂, hinv, -, hstep⟩ := h.inv_before hfew
    exact hstep.claim_iff hinv
  isPending_iff := (h.inv hfew).isPending_iff hfew
  pendingCount_eq := (h.inv hfew).pendingCount_eq hfew
  cancel_iff before key found aborted after htrace := by
    subst htrace
    obtain ⟨s₁, s₂, hinv, hlt, hstep⟩ := h.inv_before hfew
    cases hstep with
    | cancel => exact hinv.isPending_iff hlt key
  not_started_of_aborted before e after htrace := by
    subst htrace
    obtain ⟨s₁, s₂, hinv, -, hstep⟩ := h.inv_before hfew
    exact hstep.not_started_of_aborted hinv
  not_started_of_stop before call after htrace := by
    subst htrace
    obtain ⟨s₁, s₂, hinv, -, hstep⟩ := h.inv_before hfew
    cases hstep with
    | stop ht haborted => exact (hinv.aborted call _ ht haborted).1

end

/-- The timer of the first call runs out, but the key is scheduled again before the task claims its
slot. The claim fails, that of the second call succeeds, and then there is nothing to cancel. -/
def lateClaim : List (Event String) :=
  [.schedule "k" [], .expire 0, .schedule "k" [0], .claim 0 false, .expire 1, .claim 1 true,
    .cancel "k" false []]

theorem safe_lateClaim :
    let s : Scheduler String :=
      { table := { last := 2 }
        tasks := [⟨"k", 1, .ended, true⟩, ⟨"k", 2, .started, false⟩] }
    Run lateClaim s ∧ (calls lateClaim).length < UInt64.size ∧ Safe lateClaim s := by
  intro s
  have h₁ : Run [.schedule "k" []] (.mk ⟨[("k", 1)], 1⟩ [⟨"k", 1, .sleeping, false⟩]) :=
    Run.nil.concat (.schedule {} "k")
  have h₂ := h₁.concat (.expire (n := 0) rfl rfl)
  have h₃ : Run _ (.mk ⟨[("k", 2)], 2⟩ [⟨"k", 1, .due, true⟩, ⟨"k", 2, .sleeping, false⟩]) :=
    h₂.concat (.schedule _ "k")
  have h₄ := h₃.concat (.miss (n := 0) rfl rfl rfl)
  have h₅ := h₄.concat (.expire (n := 1) rfl rfl)
  have h₆ := h₅.concat (.claim (n := 1) rfl rfl rfl)
  have h₇ : Run lateClaim s := h₆.concat (.cancel _ "k")
  have hfew : (calls lateClaim).length < UInt64.size := by decide
  exact ⟨h₇, hfew, safe_of_run h₇ hfew⟩

end Scheduler

end BehaviorIndex.Timer
