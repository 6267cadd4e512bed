import BehaviorIndex.Proofs.Timer.Table
import Mathlib.Algebra.Order.Ring.Nat
import Mathlib.Data.List.Induction
import Mathlib.Data.List.Nodup

/-!
# Which actions start, and when

Clients ask a clock to schedule and to cancel timers. A call to `schedule` *stands* if no later
request touches its key before its deadline. A request that touches the key just at the deadline of
a call that stands is a *tie*, and nobody knows which of the two comes first.

**Theorem (`debounced_of_plays`).** Without ties the actions that start are those of the calls that
stand, each of them once and at its deadline. So the actions of a key depend on the requests that
touch the key, and on no others.

`Plays` has the runs of a clock: time goes on as long as no timer is due, and timers that are due
wake up in any order. To advance a clock from request to request is one of them (`plays_play`). In
all runs the actions that have started and those that still sleep are together the calls that stand
(`Plays.perm`).
-/

namespace BehaviorIndex.Timer

/-! ## Requests -/

/-- What a client asks of a clock. -/
inductive Request (κ α : Type) where
  | schedule (key : κ) (delay : Nat) (action : α)
  | cancel (key : κ)
  | cancelAll

/-- The start of an action. -/
structure Firing (κ α : Type) where
  time : Nat
  key : κ
  action : α
  deriving DecidableEq

/-- Requests with the times at which they are made, in their order. -/
abbrev Requests (κ α : Type) := List (Nat × Request κ α)

namespace Request

variable {κ α : Type}

/-- The request is about the key. -/
def Touches (key : κ) : Request κ α → Prop
  | schedule k _ _ | cancel k => k = key
  | cancelAll => True

instance [DecidableEq κ] (key : κ) : DecidablePred (Touches (α := α) key)
  | schedule k _ _ | cancel k => inferInstanceAs (Decidable (k = key))
  | cancelAll => inferInstanceAs (Decidable True)

/-- What the request asks for at a time. -/
def firing? (time : Nat) : Request κ α → Option (Firing κ α)
  | schedule key delay action => some ⟨time + delay, key, action⟩
  | cancel _ | cancelAll => none

theorem of_firing? {r : Request κ α} {time : Nat} {f : Firing κ α} (h : r.firing? time = some f) :
    time ≤ f.time ∧ ∀ key, r.Touches key ↔ f.key = key := by
  cases r with
  | schedule key delay action =>
    cases h
    exact ⟨Nat.le_add_right _ _, fun _ => Iff.rfl⟩
  | cancel key => cases h
  | cancelAll => cases h

end Request

/-! ## Calls that stand -/

namespace Requests

variable {κ α : Type}

/-- The calls to `schedule`, each with the requests that come later. -/
def calls : Requests κ α → List (Firing κ α × Requests κ α)
  | [] => []
  | (time, r) :: later => ((r.firing? time).map fun f => (f, later)).toList ++ calls later

/-- No later request touches the key before the deadline. -/
def Stands (f : Firing κ α) (later : Requests κ α) : Prop :=
  ∀ op ∈ later, op.2.Touches f.key → f.time ≤ op.1

/-- No request touches a key at the deadline of a call that stands. -/
def NoTies (ops : Requests κ α) : Prop :=
  ∀ call ∈ calls ops, Stands call.1 call.2 →
    ∀ op ∈ call.2, op.2.Touches call.1.key → op.1 ≠ call.1.time

section

variable {ops later : Requests κ α} {op : Nat × Request κ α} {f : Firing κ α}
  {call : Firing κ α × Requests κ α}

theorem exists_of_mem_calls (h : call ∈ calls ops) :
    (∃ op ∈ ops, op.2.firing? op.1 = some call.1) ∧ call.2 ⊆ ops := by
  induction ops with
  | nil => cases h
  | cons op ops ih =>
    rcases List.mem_append.mp h with h | h
    · obtain ⟨f, hf, rfl⟩ := Option.map_eq_some_iff.mp (Option.mem_toList.mp h)
      exact ⟨⟨op, List.mem_cons_self, hf⟩, List.subset_cons_self op ops⟩
    · obtain ⟨⟨op', hop', hf⟩, hsub⟩ := ih h
      exact ⟨⟨op', List.mem_cons_of_mem _ hop', hf⟩, fun _ hx => List.mem_cons_of_mem _ (hsub hx)⟩

theorem calls_concat (ops : Requests κ α) (op : Nat × Request κ α) :
    calls (ops ++ [op]) = (calls ops).map (fun call => (call.1, call.2 ++ [op])) ++
      ((op.2.firing? op.1).map fun f => (f, [])).toList := by
  induction ops with
  | nil => simp [calls]
  | cons first ops ih =>
    rw [List.cons_append, calls, calls, ih, List.map_append, List.append_assoc]
    cases first.2.firing? first.1 <;> rfl

theorem mem_calls_concat (h : call ∈ calls ops) :
    (call.1, call.2 ++ [op]) ∈ calls (ops ++ [op]) := by
  rw [calls_concat]
  exact List.mem_append_left _ (List.mem_map_of_mem h)

theorem stands_concat :
    Stands f (later ++ [op]) ↔ Stands f later ∧ (op.2.Touches f.key → f.time ≤ op.1) := by
  rw [Stands, List.forall_mem_append, List.forall_mem_singleton]
  rfl

theorem NoTies.of_concat (h : NoTies (ops ++ [op])) (htimes : ∀ op' ∈ ops, op'.1 ≤ op.1) :
    NoTies ops := by
  intro call hcall hstands op' hop' htouches heq
  have hle : call.1.time ≤ op.1 := heq ▸ htimes op' ((exists_of_mem_calls hcall).2 hop')
  exact h _ (mem_calls_concat hcall) (stands_concat.mpr ⟨hstands, fun _ => hle⟩) op'
    (List.mem_append_left _ hop') htouches heq

theorem NoTies.of_cons (h : NoTies (op :: ops)) : NoTies ops := fun call hcall =>
  h call (List.mem_append_right _ hcall)

end

variable [DecidableEq κ]

instance (f : Firing κ α) (later : Requests κ α) : Decidable (Stands f later) :=
  inferInstanceAs (Decidable (∀ op ∈ later, op.2.Touches f.key → f.time ≤ op.1))

instance (ops : Requests κ α) : Decidable (NoTies ops) :=
  inferInstanceAs (Decidable (∀ call ∈ calls ops, Stands call.1 call.2 →
    ∀ op ∈ call.2, op.2.Touches call.1.key → op.1 ≠ call.1.time))

/-- What the calls that stand ask for. -/
def standing (ops : Requests κ α) : List (Firing κ α) :=
  ((calls ops).filter fun call => Stands call.1 call.2).map Prod.fst

/-- The requests that touch a key. -/
def about (key : κ) (ops : Requests κ α) : Requests κ α := ops.filter fun op => op.2.Touches key

variable {ops later : Requests κ α} {op : Nat × Request κ α} {f : Firing κ α}

theorem mem_standing : f ∈ standing ops ↔ ∃ later, (f, later) ∈ calls ops ∧ Stands f later := by
  simp [standing]

/-- A further request drops what it touches too early. -/
theorem standing_concat (ops : Requests κ α) (op : Nat × Request κ α) :
    standing (ops ++ [op]) =
      (standing ops).filter (fun f => op.2.Touches f.key → f.time ≤ op.1) ++
        (op.2.firing? op.1).toList := by
  rw [standing, calls_concat, List.filter_append, List.map_append]
  congr 1
  · rw [standing, List.filter_map, List.filter_map, List.map_map, List.filter_filter]
    refine congrArg (List.map Prod.fst) (List.filter_congr fun call _ => ?_)
    simp [stands_concat, Bool.and_comm]
  · cases op.2.firing? op.1 with
    | none => rfl
    | some f => simp [Stands]

theorem NoTies.time_ne (h : NoTies (ops ++ [op])) (hf : f ∈ standing ops)
    (htouches : op.2.Touches f.key) : f.time ≠ op.1 := by
  obtain ⟨later, hcall, hstands⟩ := mem_standing.mp hf
  intro heq
  exact h _ (mem_calls_concat hcall) (stands_concat.mpr ⟨hstands, fun _ => heq.le⟩) op
    (List.mem_append_right _ (List.mem_singleton_self op)) htouches heq.symm

/-- Of two calls for a key that stand, the first is over before the second is made. -/
theorem NoTies.pairwise_standing (h : NoTies ops) :
    (standing ops).Pairwise fun f g => f.key = g.key → f.time < g.time := by
  induction ops with
  | nil => exact .nil
  | cons op ops ih =>
    rw [standing, calls, List.filter_append, List.map_append, List.pairwise_append]
    refine ⟨?_, ih h.of_cons, fun f hf g hg hkey => ?_⟩
    · cases op.2.firing? op.1 with
      | none => exact .nil
      | some f => by_cases hf : Stands f ops <;> simp [hf]
    · obtain ⟨call, hcall, rfl⟩ := List.mem_map.mp hf
      obtain ⟨hcall, hstands⟩ := List.mem_filter.mp hcall
      obtain ⟨f, hf, rfl⟩ := Option.map_eq_some_iff.mp (Option.mem_toList.mp hcall)
      obtain ⟨later, hlater, -⟩ := mem_standing.mp hg
      obtain ⟨⟨op', hop', hg⟩, -⟩ := exists_of_mem_calls hlater
      -- The second call touches the key, and so it is not made before the first is over.
      obtain ⟨hle, htouches⟩ := Request.of_firing? hg
      have htouches : op'.2.Touches f.key := (htouches _).mpr hkey.symm
      have hstands : Stands f ops := of_decide_eq_true hstands
      have hover : f.time ≤ op'.1 := hstands op' hop' htouches
      have hne : op'.1 ≠ f.time := h _ (List.mem_append_left _ hcall) hstands op' hop' htouches
      exact lt_of_lt_of_le (lt_of_le_of_ne hover hne.symm) hle

/-! ### Requests about one key -/

theorem stands_about (f : Firing κ α) (later : Requests κ α) :
    Stands f (about f.key later) ↔ Stands f later := by
  simp only [Stands, about, List.mem_filter, decide_eq_true_eq, and_imp]
  exact ⟨fun h op hop htouches => h op hop htouches htouches, fun h op hop _ => h op hop⟩

theorem calls_about (key : κ) (ops : Requests κ α) :
    calls (about key ops) =
      ((calls ops).filter fun call => call.1.key = key).map
        fun call => (call.1, about key call.2) := by
  induction ops with
  | nil => rfl
  | cons op ops ih =>
    obtain ⟨time, r⟩ := op
    rw [calls, List.filter_append, List.map_append, ← ih, about, List.filter_cons]
    cases hr : r.firing? time with
    | none =>
      split_ifs with htouches
      · rw [calls, hr]
        rfl
      · rfl
    | some f =>
      have hkey := (Request.of_firing? hr).2 key
      by_cases htouches : r.Touches key
      · simp [htouches, hkey.mp htouches, calls, hr, about]
      · simp [htouches, mt hkey.mpr htouches, about]

theorem standing_about (key : κ) (ops : Requests κ α) :
    standing (about key ops) = (standing ops).filter fun f => f.key = key := by
  rw [standing, calls_about, List.filter_map, List.map_map, List.filter_filter, standing,
    List.filter_map, List.filter_filter]
  refine congrArg (List.map Prod.fst) (List.filter_congr fun call _ => ?_)
  by_cases hkey : call.1.key = key
  · subst hkey
    simp [stands_about]
  · simp [hkey]

theorem NoTies.about (h : NoTies ops) (key : κ) : NoTies (about key ops) := by
  intro call' hcall' hstands op hop
  rw [calls_about] at hcall'
  obtain ⟨call, hcall, rfl⟩ := List.mem_map.mp hcall'
  obtain ⟨hmem, hkey⟩ := List.mem_filter.mp hcall
  obtain rfl : call.1.key = key := of_decide_eq_true hkey
  exact h call hmem ((stands_about _ _).mp hstands) op (List.mem_of_mem_filter hop)

end Requests

/-! ## Runs of a clock -/

variable {κ α : Type}

def Sleeper.firing (s : Sleeper κ α) : Firing κ α := ⟨s.deadline, s.key, s.action⟩

variable [DecidableEq κ]

def Request.apply (c : Clock κ α) : Request κ α → Clock κ α
  | schedule key delay action => c.schedule key delay action
  | cancel key => c.cancel key
  | cancelAll => c.cancelAll

/-- A run of a clock, with the requests that were made and the actions that have started. -/
inductive Plays : Requests κ α → List (Firing κ α) → Clock κ α → Prop
  | new : Plays [] [] {}
  | request {ops fired c} (h : Plays ops fired c) (r : Request κ α) :
      Plays (ops ++ [(c.now, r)]) fired (r.apply c)
  /-- A timer that is due claims its slot, and its action starts. -/
  | start {ops fired c s table} (h : Plays ops fired c) (hs : s ∈ c.sleepers)
      (hdue : s.deadline ≤ c.now) (hclaim : c.table.claim? s.key s.generation = some table) :
      Plays ops (fired ++ [⟨c.now, s.key, s.action⟩])
        { c with table, sleepers := Clock.dropSleeper c.sleepers s }
  /-- A timer that is due finds that its slot is not its own. -/
  | miss {ops fired c s} (h : Plays ops fired c) (hs : s ∈ c.sleepers)
      (hdue : s.deadline ≤ c.now) (hclaim : c.table.claim? s.key s.generation = none) :
      Plays ops fired { c with sleepers := Clock.dropSleeper c.sleepers s }
  /-- Time goes on, but not past a deadline. -/
  | pass {ops fired c} (h : Plays ops fired c) {now : Nat} (hle : c.now ≤ now)
      (hdeadlines : ∀ s ∈ c.sleepers, now ≤ s.deadline) : Plays ops fired { c with now }

/-- The clock shows this time, and no timer is due. -/
structure Clock.RestsAt (c : Clock κ α) (time : Nat) : Prop where
  now_eq : c.now = time
  lt_deadline : ∀ s ∈ c.sleepers, time < s.deadline

/-! ### Sleepers -/

namespace Clock

variable {c : Clock κ α} {s : Sleeper κ α}

/-- Each sleeper owns the slot of its key, and no deadline is over. -/
structure Sound (c : Clock κ α) : Prop where
  nodup : (c.sleepers.map Sleeper.key).Nodup
  owns : ∀ s ∈ c.sleepers, c.table.pending? s.key = some s.generation
  now_le : ∀ s ∈ c.sleepers, c.now ≤ s.deadline

/-- The sleeper that a request adds. -/
def sleeper? (c : Clock κ α) : Request κ α → Option (Sleeper κ α)
  | .schedule key delay action => some ⟨key, (c.table.schedule key).last, c.now + delay, action⟩
  | .cancel _ | .cancelAll => none

theorem map_firing_sleeper? (c : Clock κ α) (r : Request κ α) :
    (c.sleeper? r).map Sleeper.firing = r.firing? c.now := by
  cases r <;> rfl

theorem of_mem_sleeper? {r : Request κ α} (hs : s ∈ c.sleeper? r) :
    r.Touches s.key ∧ (r.apply c).table.pending? s.key = some s.generation ∧
      c.now ≤ s.deadline := by
  cases r with
  | schedule key delay action =>
    cases hs
    refine ⟨rfl, ?_, Nat.le_add_right _ _⟩
    rw [Request.apply, table_schedule, Table.pending?_schedule, if_pos rfl]
    rfl
  | cancel key => cases hs
  | cancelAll => cases hs

theorem pending?_apply (c : Clock κ α) {r : Request κ α} {key : κ} (h : ¬ r.Touches key) :
    (r.apply c).table.pending? key = c.table.pending? key := by
  cases r with
  | schedule k delay action =>
    rw [Request.apply, table_schedule, Table.pending?_schedule, if_neg (Ne.symm h)]
  | cancel k => rw [Request.apply, table_cancel, Table.pending?_cancel, if_neg (Ne.symm h)]
  | cancelAll => exact absurd trivial h

theorem now_apply (c : Clock κ α) (r : Request κ α) : (r.apply c).now = c.now := by
  cases r <;> rfl

namespace Sound

theorem sleepers_cancel (h : c.Sound) (key : κ) :
    (c.cancel key).sleepers = c.sleepers.filter fun s => s.key ≠ key := by
  rw [cancel, live]
  refine List.filter_congr fun s hs => ?_
  rw [Table.pending?_cancel, h.owns s hs]
  by_cases hkey : s.key = key <;> simp [hkey]

/-- A request drops the sleepers that it touches. -/
theorem sleepers_apply (h : c.Sound) (r : Request κ α) :
    (r.apply c).sleepers =
      (c.sleepers.filter fun s => ¬ r.Touches s.key) ++ (c.sleeper? r).toList := by
  have hcancel : ∀ key : κ, (c.cancel key).sleepers = c.sleepers.filter fun s => ¬ key = s.key := by
    intro key
    rw [h.sleepers_cancel]
    exact List.filter_congr fun s _ => decide_eq_decide.mpr (not_congr eq_comm)
  cases r with
  | schedule key delay action => exact congrArg (· ++ _) (hcancel key)
  | cancel key => exact (hcancel key).trans (List.append_nil _).symm
  | cancelAll => simp [Request.apply, cancelAll, Request.Touches, sleeper?]

theorem apply (h : c.Sound) (r : Request κ α) : (r.apply c).Sound := by
  refine ⟨?_, fun s hs => ?_, fun s hs => ?_⟩
  · rw [h.sleepers_apply, List.map_append, List.nodup_append]
    refine ⟨h.nodup.sublist (List.filter_sublist.map _), ?_, ?_⟩
    · cases c.sleeper? r <;> simp
    · intro key hkey key' hkey' heq
      obtain ⟨s, hs, rfl⟩ := List.mem_map.mp hkey
      obtain ⟨s', hs', rfl⟩ := List.mem_map.mp hkey'
      have hs := of_decide_eq_true (List.mem_filter.mp hs).2
      rw [heq] at hs
      exact hs (of_mem_sleeper? (Option.mem_toList.mp hs')).1
  · rw [h.sleepers_apply] at hs
    rcases List.mem_append.mp hs with hs | hs
    · obtain ⟨hs, hkey⟩ := List.mem_filter.mp hs
      rw [pending?_apply c (of_decide_eq_true hkey)]
      exact h.owns s hs
    · exact (of_mem_sleeper? (Option.mem_toList.mp hs)).2.1
  · rw [h.sleepers_apply] at hs
    rw [now_apply]
    rcases List.mem_append.mp hs with hs | hs
    · exact h.now_le s (List.mem_of_mem_filter hs)
    · exact (of_mem_sleeper? (Option.mem_toList.mp hs)).2.2

theorem claim? (h : c.Sound) (hs : s ∈ c.sleepers) :
    c.table.claim? s.key s.generation = some (c.table.cancel s.key) :=
  if_pos (h.owns s hs)

/-- Only the sleeper itself is dropped. -/
theorem perm_dropSleeper (h : c.Sound) (hs : s ∈ c.sleepers) :
    c.sleepers.Perm (s :: dropSleeper c.sleepers s) := by
  obtain ⟨front, back, hsplit⟩ := List.append_of_mem hs
  have hothers : ∀ r ∈ front ++ back, r.key ≠ s.key := by
    intro r hr heq
    have hnodup := h.nodup
    rw [hsplit, List.map_append, List.map_cons, List.nodup_middle, List.nodup_cons,
      ← List.map_append] at hnodup
    exact hnodup.1 (heq ▸ List.mem_map_of_mem hr)
  have hdrop : dropSleeper c.sleepers s = front ++ back := by
    have hkeep : (front ++ back).filter
        (fun r => r.key != s.key || r.generation != s.generation) = front ++ back :=
      List.filter_eq_self.mpr fun r hr => by simp [hothers r hr]
    rw [dropSleeper, hsplit, List.filter_append, List.filter_cons_of_neg (by simp),
      ← List.filter_append, hkeep]
  rw [hdrop, hsplit]
  exact List.perm_middle

theorem start (h : c.Sound) (hs : s ∈ c.sleepers) :
    { c with table := c.table.cancel s.key, sleepers := dropSleeper c.sleepers s }.Sound := by
  have hperm := h.perm_dropSleeper hs
  have hnodup := (hperm.map Sleeper.key).nodup_iff.mp h.nodup
  rw [List.map_cons, List.nodup_cons] at hnodup
  have hmem : ∀ r ∈ dropSleeper c.sleepers s, r ∈ c.sleepers := fun r hr =>
    hperm.mem_iff.mpr (List.mem_cons_of_mem _ hr)
  refine ⟨hnodup.2, fun r hr => ?_, fun r hr => h.now_le r (hmem r hr)⟩
  have hkey : r.key ≠ s.key := fun heq => hnodup.1 (heq ▸ List.mem_map_of_mem hr)
  rw [Table.pending?_cancel, if_neg hkey]
  exact h.owns r (hmem r hr)

end Sound

end Clock

/-! ### What holds in all runs -/

section

variable {ops : Requests κ α} {fired : List (Firing κ α)} {c : Clock κ α}

namespace Plays

theorem sound (h : Plays ops fired c) : c.Sound := by
  induction h with
  | new => exact ⟨.nil, by simp, by simp⟩
  | request _ r ih => exact ih.apply r
  | start _ hs _ hclaim ih =>
    rw [ih.claim? hs, Option.some_inj] at hclaim
    rw [← hclaim]
    exact ih.start hs
  | miss _ hs _ hclaim ih =>
    rw [ih.claim? hs] at hclaim
    cases hclaim
  | pass _ _ hdeadlines ih => exact ⟨ih.nodup, ih.owns, hdeadlines⟩

theorem le_now (h : Plays ops fired c) :
    (∀ op ∈ ops, op.1 ≤ c.now) ∧ ∀ f ∈ fired, f.time ≤ c.now := by
  induction h with
  | new => simp
  | request _ r ih =>
    rw [Clock.now_apply, List.forall_mem_append, List.forall_mem_singleton]
    exact ⟨⟨ih.1, Nat.le_refl _⟩, ih.2⟩
  | start _ _ _ _ ih =>
    rw [List.forall_mem_append, List.forall_mem_singleton]
    exact ⟨ih.1, ih.2, Nat.le_refl _⟩
  | miss _ _ _ _ ih => exact ih
  | pass _ hle _ ih =>
    exact ⟨fun op hop => (ih.1 op hop).trans hle, fun f hf => (ih.2 f hf).trans hle⟩

/-- Actions start in the order of time. -/
theorem ordered (h : Plays ops fired c) : fired.Pairwise fun f g => f.time ≤ g.time := by
  induction h with
  | new => exact .nil
  | request _ _ ih | miss _ _ _ _ ih | pass _ _ _ ih => exact ih
  | start h _ _ _ ih =>
    rw [List.pairwise_append]
    refine ⟨ih, List.pairwise_singleton _ _, fun f hf g hg => ?_⟩
    obtain rfl := List.mem_singleton.mp hg
    exact h.le_now.2 f hf

/-- A request drops the same from the sleepers as from the calls that stand. -/
theorem perm_request (h : Plays ops fired c) {r : Request κ α}
    (hties : Requests.NoTies (ops ++ [(c.now, r)]))
    (hperm : (fired ++ c.sleepers.map Sleeper.firing).Perm ops.standing) :
    (fired ++ (r.apply c).sleepers.map Sleeper.firing).Perm
      (Requests.standing (ops ++ [(c.now, r)])) := by
  -- What has started is over, and what sleeps is not, because there are no ties.
  have hfired : fired.filter (fun f => r.Touches f.key → f.time ≤ c.now) = fired :=
    List.filter_eq_self.mpr fun f hf => decide_eq_true fun _ => h.le_now.2 f hf
  have hsleepers : (c.sleepers.map Sleeper.firing).filter
      (fun f => r.Touches f.key → f.time ≤ c.now) =
      (c.sleepers.filter fun s => ¬ r.Touches s.key).map Sleeper.firing := by
    rw [List.filter_map]
    refine congrArg _ (List.filter_congr fun s hs => decide_eq_decide.mpr ?_)
    have hmem : s.firing ∈ ops.standing :=
      hperm.mem_iff.mp (List.mem_append_right _ (List.mem_map_of_mem hs))
    have hle : c.now ≤ s.deadline := h.sound.now_le s hs
    constructor
    · intro hover htouches
      exact hties.time_ne hmem htouches (Nat.le_antisymm (hover htouches) hle)
    · intro hnot htouches
      exact absurd htouches hnot
  have hfilter := hperm.filter fun f => r.Touches f.key → f.time ≤ c.now
  rw [List.filter_append, hfired, hsleepers] at hfilter
  rw [Requests.standing_concat, h.sound.sleepers_apply, List.map_append, ← List.append_assoc,
    ← Option.toList_map, Clock.map_firing_sleeper?]
  exact hfilter.append_right _

/-- A timer that wakes up goes from the sleepers to what has started. -/
theorem perm_start (h : Plays ops fired c) {s : Sleeper κ α} (hs : s ∈ c.sleepers)
    (hdue : s.deadline ≤ c.now) :
    (fired ++ [Firing.mk c.now s.key s.action] ++
      (Clock.dropSleeper c.sleepers s).map Sleeper.firing).Perm
      (fired ++ c.sleepers.map Sleeper.firing) := by
  have hnow : c.now = s.deadline := Nat.le_antisymm (h.sound.now_le s hs) hdue
  have hdrop := (h.sound.perm_dropSleeper hs).map Sleeper.firing
  rw [List.append_assoc, hnow]
  exact hdrop.symm.append_left fired

/-- **The invariant.** What has started and what still sleeps are the calls that stand. -/
theorem perm (h : Plays ops fired c) (hties : ops.NoTies) :
    (fired ++ c.sleepers.map Sleeper.firing).Perm ops.standing := by
  induction h with
  | new => exact .nil
  | request h r ih => exact h.perm_request hties (ih (hties.of_concat h.le_now.1))
  | start h hs hdue _ ih => exact (h.perm_start hs hdue).trans (ih hties)
  | miss h hs _ hclaim =>
    rw [h.sound.claim? hs] at hclaim
    cases hclaim
  | pass _ _ _ ih => exact ih hties

/-- Two actions of one key start one after the other. -/
theorem once (h : Plays ops fired c) (hties : ops.NoTies) :
    fired.Pairwise fun f g => f.key = g.key → f.time < g.time := by
  have hne : (fired ++ c.sleepers.map Sleeper.firing).Pairwise
      fun f g => f.key = g.key → f.time ≠ g.time := by
    rw [(h.perm hties).pairwise_iff fun hne hkey => (hne hkey.symm).symm]
    exact hties.pairwise_standing.imp fun hlt hkey => (hlt hkey).ne
  refine ((List.pairwise_append.mp hne).1.and h.ordered).imp ?_
  rintro f g ⟨hne, hle⟩ hkey
  exact lt_of_le_of_ne hle (hne hkey)

/-- What has started by a time that is over. -/
theorem perm_filter {stop : Nat} (h : Plays ops fired c) (hties : ops.NoTies)
    (hrests : c.RestsAt stop) {time : Nat} (hle : time ≤ stop) :
    (fired.filter fun f => f.time ≤ time).Perm (ops.standing.filter fun f => f.time ≤ time) := by
  have hnone : (c.sleepers.map Sleeper.firing).filter (fun f => f.time ≤ time) = [] := by
    rw [List.filter_eq_nil_iff]
    intro f hf
    obtain ⟨s, hs, rfl⟩ := List.mem_map.mp hf
    have hlt := hrests.lt_deadline s hs
    exact fun hover => absurd (of_decide_eq_true hover) (Nat.not_le.mpr (hle.trans_lt hlt))
  have hfilter := (h.perm hties).filter fun f => f.time ≤ time
  rwa [List.filter_append, hnone, List.append_nil] at hfilter

theorem perm_of_restsAt {stop : Nat} (h : Plays ops fired c) (hties : ops.NoTies)
    (hrests : c.RestsAt stop) : fired.Perm (ops.standing.filter fun f => f.time ≤ stop) := by
  have hall : fired.filter (fun f => f.time ≤ stop) = fired :=
    List.filter_eq_self.mpr fun f hf => decide_eq_true (hrests.now_eq ▸ h.le_now.2 f hf)
  have hperm := h.perm_filter hties hrests (Nat.le_refl stop)
  rwa [hall] at hperm

/-- The actions of a key start as if there were no other keys. -/
theorem filter_key {stop : Nat} (h : Plays ops fired c) (hties : ops.NoTies)
    (hrests : c.RestsAt stop) {key : κ} {fired' : List (Firing κ α)} {c' : Clock κ α}
    (h' : Plays (ops.about key) fired' c') (hrests' : c'.RestsAt stop) :
    (fired.filter fun f => f.key = key) = fired' := by
  have hperm := (h.perm_of_restsAt hties hrests).filter fun f => f.key = key
  have hperm' := h'.perm_of_restsAt (hties.about key) hrests'
  rw [Requests.standing_about, List.filter_comm] at hperm'
  have hkey : ∀ f ∈ fired', f.key = key := fun f hf =>
    of_decide_eq_true (List.mem_filter.mp (hperm'.mem_iff.mp hf)).2
  have hlt : (fired.filter fun f => f.key = key).Pairwise fun f g => f.time < g.time := by
    refine ((h.once hties).filter _).imp_of_mem fun hf hg hlt => hlt ?_
    exact (of_decide_eq_true (List.mem_filter.mp hf).2).trans
      (of_decide_eq_true (List.mem_filter.mp hg).2).symm
  have hlt' : fired'.Pairwise fun f g => f.time < g.time :=
    (h'.once (hties.about key)).imp_of_mem fun hf hg hlt =>
      hlt ((hkey _ hf).trans (hkey _ hg).symm)
  exact (hperm.trans hperm'.symm).eq_of_pairwise
    (fun f g _ _ hfg hgf => absurd hfg (Nat.lt_asymm hgf)) hlt hlt'

end Plays

/-! ## The clock plays -/

namespace Clock

omit [DecidableEq κ] in
theorem due?_eq_none {t : Nat} {ss : List (Sleeper κ α)} (h : due? t ss = none) :
    ∀ s ∈ ss, t < s.deadline := by
  induction ss with
  | nil => simp
  | cons r ss ih =>
    rw [due?] at h
    split at h
    · next hrest =>
      split at h
      · cases h
      · next hlater =>
        exact List.forall_mem_cons.mpr ⟨Nat.lt_of_not_le hlater, ih hrest⟩
    · split at h <;> cases h

omit [DecidableEq κ] in
theorem deadline_of_due? {t : Nat} {ss : List (Sleeper κ α)} {s : Sleeper κ α}
    (h : due? t ss = some s) : s.deadline ≤ t ∧ ∀ r ∈ ss, s.deadline ≤ r.deadline := by
  induction ss generalizing s with
  | nil => cases h
  | cons r ss ih =>
    rw [due?] at h
    split at h
    · next hrest =>
      split at h
      · next hdue =>
        cases h
        refine ⟨hdue, List.forall_mem_cons.mpr ⟨Nat.le_refl _, fun r' hr' => ?_⟩⟩
        exact hdue.trans (due?_eq_none hrest r' hr').le
      · cases h
    · next other hrest =>
      obtain ⟨hother, hleast⟩ := ih hrest
      split at h
      · next hfirst =>
        cases h
        exact ⟨hfirst.trans hother,
          List.forall_mem_cons.mpr ⟨Nat.le_refl _, fun r' hr' => hfirst.trans (hleast r' hr')⟩⟩
      · next hfirst =>
        cases h
        exact ⟨hother, List.forall_mem_cons.mpr ⟨(Nat.lt_of_not_le hfirst).le, hleast⟩⟩

end Clock

/-- When an action starts, and which. -/
def Firing.start (f : Firing κ α) : Nat × α := (f.time, f.action)

theorem Plays.wake {t : Nat} (h : Plays ops fired c) (hle : c.now ≤ t) :
    ∃ more, Plays ops (fired ++ more) (c.wake t).1 ∧ more.map Firing.start = (c.wake t).2 ∧
      (c.wake t).1.now ≤ t ∧ ∀ s ∈ (c.wake t).1.sleepers, t < s.deadline := by
  fun_induction Clock.wake t c generalizing fired with
  | case1 c hnone =>
    exact ⟨[], by rwa [List.append_nil], rfl, hle, Clock.due?_eq_none hnone⟩
  | case2 c s hdue sleepers now hclaim =>
    rw [h.sound.claim? (Clock.mem_of_due? hdue)] at hclaim
    cases hclaim
  | case3 c s hdue sleepers now table hclaim c' started hwake =>
    rename_i ih
    obtain ⟨hdeadline, hleast⟩ := Clock.deadline_of_due? hdue
    -- The clock goes on to the deadline, which is the first of all, and the timer wakes up.
    have hpass : Plays ops fired { c with now } :=
      h.pass (Nat.le_max_left _ _) fun r hr => Nat.max_le.mpr ⟨h.sound.now_le r hr, hleast r hr⟩
    have hstart := hpass.start (Clock.mem_of_due? hdue) (Nat.le_max_right _ _) hclaim
    obtain ⟨more, hplays, hmore, hnow, hrest⟩ := ih hstart (Nat.max_le.mpr ⟨hle, hdeadline⟩)
    rw [hwake] at hplays hmore hnow hrest
    refine ⟨⟨now, s.key, s.action⟩ :: more, ?_, ?_, hnow, hrest⟩
    · rwa [List.append_assoc] at hplays
    · rw [List.map_cons, hmore]
      rfl

theorem Plays.advance (h : Plays ops fired c) (ms : Nat) :
    ∃ more, Plays ops (fired ++ more) (c.advance ms).1 ∧
      more.map Firing.start = (c.advance ms).2 ∧ (c.advance ms).1.RestsAt (c.now + ms) := by
  obtain ⟨more, hplays, hmore, hnow, hrest⟩ := h.wake (Nat.le_add_right c.now ms)
  exact ⟨more, hplays.pass hnow fun s hs => (hrest s hs).le, hmore, rfl, hrest⟩

/-- Advance a clock to a request, and make the request. -/
def serve (played : Clock κ α × List (Nat × α)) (op : Nat × Request κ α) :
    Clock κ α × List (Nat × α) :=
  let (c, started) := played.1.advance (op.1 - played.1.now)
  (op.2.apply c, played.2 ++ started)

/-- Make some requests at their times, and advance the clock to a time. Gives the actions that
start, with the times at which they do. -/
def play (ops : Requests κ α) (stop : Nat) : Clock κ α × List (Nat × α) :=
  let played := ops.foldl serve ({}, [])
  let (c, started) := played.1.advance (stop - played.1.now)
  (c, played.2 ++ started)

theorem plays_foldl_serve (hsorted : ops.Pairwise fun op op' => op.1 ≤ op'.1) :
    ∃ fired, Plays ops fired (ops.foldl serve ({}, [])).1 ∧
      fired.map Firing.start = (ops.foldl serve ({}, [])).2 ∧
      ∀ time, (∀ op ∈ ops, op.1 ≤ time) → (ops.foldl serve ({}, [])).1.now ≤ time := by
  induction ops using List.reverseRecOn with
  | nil => exact ⟨[], .new, rfl, fun time _ => Nat.zero_le time⟩
  | append_singleton ops op ih =>
    rw [List.pairwise_append] at hsorted
    obtain ⟨fired, hplays, hfired, hnow⟩ := ih hsorted.1
    have hnow := hnow op.1 fun op' hop' => hsorted.2.2 op' hop' op (List.mem_singleton_self op)
    rw [List.foldl_append, List.foldl_cons, List.foldl_nil]
    generalize ops.foldl serve ({}, []) = played at hplays hfired hnow
    obtain ⟨more, hplays, hmore, hrests⟩ := hplays.advance (op.1 - played.1.now)
    have htime : (played.1.advance (op.1 - played.1.now)).1.now = op.1 := by
      rw [hrests.now_eq]
      omega
    refine ⟨fired ++ more, ?_, ?_, fun time htimes => ?_⟩
    · have hrequest := hplays.request op.2
      rw [htime] at hrequest
      exact hrequest
    · rw [List.map_append, hfired, hmore]
      rfl
    · rw [serve, Clock.now_apply, htime]
      exact htimes op (List.mem_append_right _ (List.mem_singleton_self op))

theorem plays_play {stop : Nat} (hsorted : ops.Pairwise fun op op' => op.1 ≤ op'.1)
    (hstop : ∀ op ∈ ops, op.1 ≤ stop) :
    ∃ fired, Plays ops fired (play ops stop).1 ∧ fired.map Firing.start = (play ops stop).2 ∧
      (play ops stop).1.RestsAt stop := by
  obtain ⟨fired, hplays, hfired, hnow⟩ := plays_foldl_serve hsorted
  have hnow := hnow stop hstop
  rw [play]
  generalize ops.foldl serve ({}, []) = played at hplays hfired hnow
  obtain ⟨more, hplays, hmore, hrests⟩ := hplays.advance (stop - played.1.now)
  rw [Nat.add_sub_cancel' hnow] at hrests
  refine ⟨fired ++ more, hplays, ?_, hrests⟩
  rw [List.map_append, hfired, hmore]

/-- What has started until a time. -/
structure Debounced (ops : Requests κ α) (stop : Nat) (fired : List (Firing κ α)) : Prop where
  perm : ∀ time ≤ stop,
    (fired.filter fun f => f.time ≤ time).Perm (ops.standing.filter fun f => f.time ≤ time)
  ordered : fired.Pairwise fun f g => f.time ≤ g.time
  once : fired.Pairwise fun f g => f.key = g.key → f.time < g.time
  /-- The actions of a key start as if there were no other keys. -/
  independent : ∀ (key : κ) (fired' : List (Firing κ α)) (c' : Clock κ α),
    Plays (ops.about key) fired' c' → c'.RestsAt stop →
      (fired.filter fun f => f.key = key) = fired'

/-- **Which actions start, and when.** -/
theorem debounced_of_plays {stop : Nat} (hsorted : ops.Pairwise fun op op' => op.1 ≤ op'.1)
    (hstop : ∀ op ∈ ops, op.1 ≤ stop) (hties : ops.NoTies) :
    (∃ fired, Plays ops fired (play ops stop).1 ∧ fired.map Firing.start = (play ops stop).2 ∧
      (play ops stop).1.RestsAt stop) ∧
    ∀ (fired : List (Firing κ α)) (c : Clock κ α), Plays ops fired c → c.RestsAt stop →
      Debounced ops stop fired := by
  refine ⟨plays_play hsorted hstop, fun fired c h hrests => ?_⟩
  exact ⟨fun time hle => h.perm_filter hties hrests hle, h.ordered, h.once hties,
    fun key fired' c' h' hrests' => h.filter_key hties hrests h' hrests'⟩

end

/-- A key that is scheduled again with a longer and then with a shorter delay, and once more after
its action has started; a key that is cancelled; and a key that is scheduled right after all timers
were cancelled. -/
def burst : Requests Nat Nat :=
  [(0, .schedule 1 100 10), (50, .schedule 1 200 11), (60, .schedule 2 100 20),
    (100, .schedule 1 30 12), (140, .schedule 1 50 13), (150, .cancel 2), (160, .schedule 2 500 21),
    (170, .schedule 3 5 30), (300, .cancelAll), (300, .schedule 3 10 31)]

theorem debounced_of_burst : ∃ fired : List (Firing Nat Nat),
    fired.map Firing.start = (play burst 400).2 ∧
      (play burst 400).2 = [(130, 12), (175, 30), (190, 13), (310, 31)] ∧
      Debounced burst 400 fired := by
  obtain ⟨⟨fired, hplays, hfired, hrests⟩, hall⟩ :=
    @debounced_of_plays Nat Nat _ burst 400 (by decide) (by decide) (by decide)
  exact ⟨fired, hfired, by decide +kernel, hall fired _ hplays hrests⟩

end BehaviorIndex.Timer
